import LanguageTheory.Regex.Parser

/-!
# The notation of regular expressions

What a pattern says, by the syntactic categories of the notation: a union of concatenations of
starred terms. Both binary forms group to the left. What fits a place fits every place that asks for
less (`Spells.loosen`), and only symbols of the alphabet are spelt (`Spells.mem_of_mem_symbols`).
-/

namespace LanguageTheory.Regex

variable {A : Alphabet Char} {markers : Markers} {text : List Char} {r : Regex Char} {c : Char}

/-- The syntactic categories, from the loosest to the tightest. -/
inductive Category where
  | union
  | concat
  | starred
  | term
deriving DecidableEq

/-- The category of a place that asks for a precedence. -/
def Category.ofPrecedence : Nat → Category
  | 0 => union
  | 1 => concat
  | _ => starred

/-- A text spells an expression in a category. -/
inductive Spells (A : Alphabet Char) (markers : Markers) :
    Category → List Char → Regex Char → Prop
  | symbol {c : Char} : c ∉ operators → c ∈ A → Spells A markers .term [c] (symbol c)
  | emptyWord : markers.emptyWord ∉ operators → markers.emptyWord ∉ A →
      Spells A markers .term [markers.emptyWord] emptyWord
  | emptyLanguage : markers.emptyLanguage ∉ operators → markers.emptyLanguage ∉ A →
      markers.emptyLanguage ≠ markers.emptyWord →
      Spells A markers .term [markers.emptyLanguage] emptyLanguage
  | emptyGroup : Spells A markers .term ['(', ')'] emptyWord
  | group {text : List Char} {r : Regex Char} :
      Spells A markers .union text r → Spells A markers .term ('(' :: text ++ [')']) r
  | ofTerm {text : List Char} {r : Regex Char} :
      Spells A markers .term text r → Spells A markers .starred text r
  | star {text : List Char} {r : Regex Char} :
      Spells A markers .starred text r → Spells A markers .starred (text ++ ['*']) (star r)
  | ofStarred {text : List Char} {r : Regex Char} :
      Spells A markers .starred text r → Spells A markers .concat text r
  | concat {text rest : List Char} {r s : Regex Char} :
      Spells A markers .concat text r → Spells A markers .starred rest s →
      Spells A markers .concat (text ++ rest) (concat r s)
  | ofConcat {text : List Char} {r : Regex Char} :
      Spells A markers .concat text r → Spells A markers .union text r
  | union {text rest : List Char} {r s : Regex Char} :
      Spells A markers .union text r → Spells A markers .concat rest s →
      Spells A markers .union (text ++ '+' :: rest) (union r s)

/-- Markers that are read wherever they stand, unless the alphabet has them. -/
structure Markers.Plain (markers : Markers) : Prop where
  emptyWord : markers.emptyWord ∉ operators
  emptyLanguage : markers.emptyLanguage ∉ operators

theorem plain_default : Markers.Plain {} := ⟨by decide, by decide⟩

namespace Spells

/-- A starred term may stand anywhere. -/
theorem anywhere {place : Nat} (h : Spells A markers .starred text r) :
    Spells A markers (.ofPrecedence place) text r := by
  match place with
  | 0 => exact .ofConcat (.ofStarred h)
  | 1 => exact .ofStarred h
  | _ + 2 => exact h

/-- What fits a place fits one that asks for less. -/
theorem loosen {own place : Nat} (hplace : place ≤ own)
    (h : Spells A markers (.ofPrecedence own) text r) :
    Spells A markers (.ofPrecedence place) text r := by
  match own, place with
  | 0, 0 => exact h
  | 1, 0 => exact .ofConcat h
  | 1, 1 => exact h
  | _ + 2, _ => exact h.anywhere

/-- The symbols of what is spelt are symbols of the alphabet, and no operators. -/
theorem mem_of_mem_symbols {category : Category} (h : Spells A markers category text r)
    (hc : c ∈ r.symbols) : c ∈ A ∧ c ∉ operators := by
  induction h with
  | symbol hoperator hmem =>
      obtain rfl := List.mem_singleton.mp hc
      exact ⟨hmem, hoperator⟩
  | emptyWord => cases hc
  | emptyLanguage => cases hc
  | emptyGroup => cases hc
  | group _ ih => exact ih hc
  | ofTerm _ ih => exact ih hc
  | star _ ih => exact ih hc
  | ofStarred _ ih => exact ih hc
  | concat _ _ ihfirst ihsecond =>
      rcases List.mem_append.mp hc with hc | hc
      · exact ihfirst hc
      · exact ihsecond hc
  | ofConcat _ ih => exact ih hc
  | union _ _ ihleft ihright =>
      rcases List.mem_append.mp hc with hc | hc
      · exact ihleft hc
      · exact ihright hc

end Spells

end LanguageTheory.Regex
