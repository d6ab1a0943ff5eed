import LanguageTheory.Proofs.Regex.Reading
import LanguageTheory.Regex.Printer

/-!
# Texts that are read back

The text of an expression spells it, with parentheses where the notation asks for them
(`spells_textAt`). Only a marker that the alphabet has is read as a symbol instead. So an expression
is read back from its text exactly if its symbols can be written and no marker in it is shadowed.
-/

namespace LanguageTheory.Regex

variable {A : Alphabet Char} {markers : Markers} {text : List Char} {r : Regex Char} {c : Char}

/-- The expressions that an expression is made of, with itself. -/
def parts {α : Type} : Regex α → List (Regex α)
  | concat first second => concat first second :: (first.parts ++ second.parts)
  | union left right => union left right :: (left.parts ++ right.parts)
  | star item => star item :: item.parts
  | r => [r]

/-- An expression as it is read from its text, where a marker of the alphabet is a symbol. -/
def shadowed (A : Alphabet Char) : Regex Char → Regex Char
  | emptyLanguage => if 'ϕ' ∈ A then symbol 'ϕ' else emptyLanguage
  | emptyWord => if 'λ' ∈ A then symbol 'λ' else emptyWord
  | symbol c => symbol c
  | concat first second => concat (first.shadowed A) (second.shadowed A)
  | union left right => union (left.shadowed A) (right.shadowed A)
  | star item => star (item.shadowed A)

theorem shadowed_eq_self_iff : r.shadowed A = r ↔
    ('λ' ∈ A → emptyWord ∉ r.parts) ∧ ('ϕ' ∈ A → emptyLanguage ∉ r.parts) := by
  induction r with
  | emptyLanguage => simp [shadowed, parts]
  | emptyWord => simp [shadowed, parts]
  | symbol c => simp [shadowed, parts]
  | concat first second ihfirst ihsecond =>
      simp only [shadowed, concat.injEq, ihfirst, ihsecond, parts, List.mem_cons, List.mem_append]
      grind
  | union left right ihleft ihright =>
      simp only [shadowed, union.injEq, ihleft, ihright, parts, List.mem_cons, List.mem_append]
      grind
  | star item ih => simp [shadowed, ih, parts]

/-! ## Spelling -/

/-- A text between parentheses, if it needs them, fits its place. -/
theorem spells_parenthesized (own place : Nat)
    (h : Spells A markers (.ofPrecedence own) text r) :
    Spells A markers (.ofPrecedence place) (parenthesized (own < place) text) r := by
  unfold parenthesized
  split
  next =>
    have hunion : Spells A markers .union text r := h.loosen (Nat.zero_le own)
    exact (Spells.ofTerm (.group hunion)).anywhere
  next hfits => exact h.loosen (by simpa using hfits)

/-- The text of an expression at a place fits that place, if its symbols can be written. -/
theorem spells_textAt (place : Nat) (hr : ∀ c ∈ r.symbols, c ∈ A ∧ c ∉ operators) :
    Spells A {} (.ofPrecedence place) (r.textAt (fun c => [c]) place) (r.shadowed A) := by
  induction r generalizing place with
  | emptyLanguage =>
      refine spells_parenthesized 2 place (.ofTerm ?_)
      rw [shadowed]
      split
      next hmem => exact .symbol (by decide) hmem
      next hmem => exact .emptyLanguage (by decide) hmem (by decide)
  | emptyWord =>
      refine spells_parenthesized 2 place (.ofTerm ?_)
      rw [shadowed]
      split
      next hmem => exact .symbol (by decide) hmem
      next hmem => exact .emptyWord (by decide) hmem
  | symbol c =>
      obtain ⟨hmem, hoperator⟩ := hr c (List.mem_singleton_self c)
      exact spells_parenthesized 2 place (.ofTerm (.symbol hoperator hmem))
  | concat first second ihfirst ihsecond =>
      have hfirst : Spells A {} .concat _ _ :=
        ihfirst 1 fun c hc => hr c (List.mem_append_left _ hc)
      have hsecond : Spells A {} .starred _ _ :=
        ihsecond 2 fun c hc => hr c (List.mem_append_right _ hc)
      exact spells_parenthesized 1 place (.concat hfirst hsecond)
  | union left right ihleft ihright =>
      have hleft : Spells A {} .union _ _ :=
        ihleft 0 fun c hc => hr c (List.mem_append_left _ hc)
      have hright : Spells A {} .concat _ _ :=
        ihright 1 fun c hc => hr c (List.mem_append_right _ hc)
      exact spells_parenthesized 0 place (.union hleft hright)
  | star item ih =>
      have hitem : Spells A {} .starred _ _ := ih 2 hr
      exact spells_parenthesized 2 place (.star hitem)

theorem toList_display : r.display.toList = r.toChars := by
  have hplain : (fun a : Char => (SymbolText.plain a).toList) = fun c => [c] := by
    funext c
    exact String.toList_singleton c
  rw [display, String.toList_ofList, hplain, toChars]

/-! ## Round trip -/

theorem parse_toList_display (hr : ∀ c ∈ r.symbols, c ∈ A ∧ c ∉ operators) :
    parse A r.display.toList = .ok (r.shadowed A) := by
  rw [parse, toList_display, parseWith_eq_ok_iff plain_default]
  have htext : Spells A {} .union r.toChars (r.shadowed A) := spells_textAt 0 hr
  exact .inr htext

theorem mem_of_mem_symbols_of_parse (h : parse A text = .ok r) (hc : c ∈ r.symbols) :
    c ∈ A ∧ c ∉ operators := by
  rcases (parseWith_eq_ok_iff plain_default).mp h with ⟨_, rfl⟩ | htext
  · cases hc
  · exact htext.mem_of_mem_symbols hc

/-- An expression is read back from its text exactly if its symbols are in the alphabet and are no
operators, and it has no expression whose marker is in the alphabet. -/
theorem parse_display_eq_self_iff (A : Alphabet Char) (r : Regex Char) :
    parse A r.display.toList = .ok r ↔ (∀ c ∈ r.symbols, c ∈ A ∧ c ∉ operators) ∧
      ('λ' ∈ A → emptyWord ∉ r.parts) ∧ ('ϕ' ∈ A → emptyLanguage ∉ r.parts) := by
  rw [← shadowed_eq_self_iff]
  constructor
  · intro h
    have hsymbols : ∀ c ∈ r.symbols, c ∈ A ∧ c ∉ operators :=
      fun c hc => mem_of_mem_symbols_of_parse h hc
    rw [parse_toList_display hsymbols] at h
    exact ⟨hsymbols, Except.ok.inj h⟩
  · rintro ⟨hsymbols, hshadowed⟩
    rw [parse_toList_display hsymbols, hshadowed]

end LanguageTheory.Regex
