import LanguageTheory.Regex.Parser

/-!
# Reading by descent

A pattern can also be taken apart from the top: a union is concatenations with `+` between them, a
concatenation is starred terms one after the other, and a group is a union again. Where a part cannot
be read something else may be tried, unless the descent has come to a point of no return.
-/

namespace LanguageTheory.Regex

/-- Where a part of a pattern cannot be read. Unless it is fatal, something else may be tried. -/
structure Stop where
  fatal : Bool
  kind : SyntaxFault.Kind
  rest : List Char

/-- The beginning of a text has been read, and there is less of the text left. -/
structure Parsed (text : List Char) where
  value : Regex Char
  rest : List Char
  shorter : rest.length < text.length

/-- What reading from the beginning of a text comes to. -/
abbrev Descent (text : List Char) : Type := Except Stop (Parsed text)

namespace Descent

variable {text rest : List Char} {c : Char}

/-- Nothing is read, and something else may be tried. -/
def refuse (text : List Char) : Descent text := .error ⟨false, .missingOperand, text⟩

/-- Tries something else unless the first attempt succeeds or is fatal. -/
def orElse (first second : Descent text) : Descent text :=
  match first with
  | .ok parsed => .ok parsed
  | .error stop => if stop.fatal then .error stop else second

theorem orElse_refuse {second : Descent text} : orElse (refuse text) second = second := rfl

/-- Nothing else may be tried. -/
def cut : Descent text → Descent text
  | .ok parsed => .ok parsed
  | .error stop => .error { stop with fatal := true }

/-- What follows a character that a text begins with. -/
def after? (c : Char) : List Char → Option (List Char)
  | [] => none
  | d :: rest => if d = c then some rest else none

theorem after?_eq_some : after? c text = some rest ↔ text = c :: rest := by
  cases text with
  | nil => simp [after?]
  | cons d text => simp [after?]

theorem length_after? (h : after? c text = some rest) : rest.length < text.length := by
  rw [after?_eq_some.mp h]
  exact Nat.lt_succ_self _

/-! ## Terms -/

/-- A symbol of the alphabet. -/
def literal (A : Alphabet Char) : (text : List Char) → Descent text
  | [] => refuse []
  | c :: rest =>
      if c ∉ operators ∧ c ∈ A then .ok ⟨.symbol c, rest, Nat.lt_succ_self _⟩
      else refuse (c :: rest)

/-- A marker. -/
def marker (markers : Markers) : (text : List Char) → Descent text
  | [] => refuse []
  | c :: rest =>
      if c = markers.emptyWord then .ok ⟨.emptyWord, rest, Nat.lt_succ_self _⟩
      else if c = markers.emptyLanguage then .ok ⟨.emptyLanguage, rest, Nat.lt_succ_self _⟩
      else refuse (c :: rest)

/-- The last resort, which only tells an unknown symbol from an operand that is missing. -/
def unknown : (text : List Char) → Descent text
  | [] => refuse []
  | c :: rest =>
      if c ∉ operators then .error ⟨true, .unknownSymbol c, c :: rest⟩ else refuse (c :: rest)

/-- Applies the stars at the beginning of a text. -/
def stars (r : Regex Char) : List Char → Regex Char × List Char
  | [] => (r, [])
  | c :: rest => if c = '*' then stars (.star r) rest else (r, c :: rest)

theorem length_stars_le (r : Regex Char) (rest : List Char) :
    (stars r rest).2.length ≤ rest.length := by
  induction rest generalizing r with
  | nil => exact Nat.le_refl 0
  | cons c rest ih =>
      unfold stars
      split
      next => exact Nat.le_succ_of_le (ih _)
      next => exact Nat.le_refl _

/-- A term with the stars that follow it. -/
def starred : Descent text → Descent text
  | .ok term => .ok ⟨(stars term.value term.rest).1, (stars term.value term.rest).2,
      Nat.lt_of_le_of_lt (length_stars_le _ _) term.shorter⟩
  | .error stop => .error stop

/-- What has been read between parentheses. A group that is not closed is at fault where it opens,
and so is one in which an operand is missing where the text ends. -/
def enclosed {inner : List Char} (hinner : inner.length < text.length) :
    Descent inner → Descent text
  | .error stop =>
      if stop.fatal ∧ stop.kind = .missingOperand ∧ stop.rest = [] then
        .error ⟨true, .unbalancedParenthesis, text⟩
      else .error stop
  | .ok group =>
      match hclose : after? ')' group.rest with
      | some rest => .ok ⟨group.value, rest,
          Nat.lt_trans (length_after? hclose) (Nat.lt_trans group.shorter hinner)⟩
      | none => .error ⟨true, .unbalancedParenthesis, text⟩

/-! ## Groups -/

section Groups

variable (A : Alphabet Char) (markers : Markers)

-- every call is made for a shorter text, or for the same text further down in the hierarchy
mutual

/-- A group in parentheses. -/
def parenthesized (text : List Char) : Descent text :=
  match hopen : after? '(' text with
  | none => refuse text
  | some inner =>
      match hempty : after? ')' inner with
      | some rest =>
          .ok ⟨.emptyWord, rest, Nat.lt_trans (length_after? hempty) (length_after? hopen)⟩
      | none => enclosed (length_after? hopen) (union inner)
termination_by (text.length, 0)
decreasing_by exact .left _ _ (length_after? hopen)

/-- A group, a symbol or a marker. -/
def term (text : List Char) : Descent text :=
  orElse (parenthesized text) (orElse (literal A text) (orElse (marker markers text) (unknown text)))
termination_by (text.length, 1)

/-- Goes on with the factors that follow. -/
def factors {text : List Char} (before : Parsed text) : Descent text :=
  match starred (term before.rest) with
  | .ok factor => factors ⟨.concat before.value factor.value, factor.rest,
      Nat.lt_trans factor.shorter before.shorter⟩
  | .error stop => if stop.fatal then .error stop else .ok before
termination_by (before.rest.length, 2)
decreasing_by
  · exact .right _ (by decide)
  · exact .left _ _ factor.shorter

/-- A concatenation of starred terms. The first of them must be there. -/
def concatenation (text : List Char) : Descent text :=
  match cut (starred (term text)) with
  | .ok first => factors first
  | .error stop => .error stop
termination_by (text.length, 3)
decreasing_by
  · exact .right _ (by decide)
  · exact .left _ _ first.shorter

/-- Goes on with the alternatives that follow. After a `+` one must be there. -/
def alternatives {text : List Char} (before : Parsed text) : Descent text :=
  match hplus : after? '+' before.rest with
  | none => .ok before
  | some rest =>
      match cut (concatenation rest) with
      | .ok right => alternatives ⟨.union before.value right.value, right.rest,
          Nat.lt_trans right.shorter (Nat.lt_trans (length_after? hplus) before.shorter)⟩
      | .error stop => .error stop
termination_by (before.rest.length, 4)
decreasing_by
  · exact .left _ _ (length_after? hplus)
  · exact .left _ _ (Nat.lt_trans right.shorter (length_after? hplus))

/-- A union of concatenations. -/
def union (text : List Char) : Descent text :=
  match concatenation text with
  | .ok first => alternatives first
  | .error stop => .error stop
termination_by (text.length, 5)
decreasing_by
  · exact .right _ (by decide)
  · exact .left _ _ first.shorter

end

/-- A whole pattern. After a union, only a parenthesis that closes nothing can be left. -/
def pattern (text : List Char) : Except Stop (Regex Char) :=
  if text = [] then .ok .emptyWord
  else
    match union A markers text with
    | .ok parsed =>
        if parsed.rest = [] then .ok parsed.value
        else .error ⟨true, .unbalancedParenthesis, parsed.rest⟩
    | .error stop => .error stop

end Groups

end Descent

/-- Reads a pattern by descent. The position of a fault is told from what is left of the pattern. -/
def descend (A : Alphabet Char) (markers : Markers) (text : List Char) :
    Except SyntaxFault (Regex Char) :=
  match Descent.pattern A markers text with
  | .ok r => .ok r
  | .error stop => .error ⟨stop.kind, text.length - stop.rest.length⟩

end LanguageTheory.Regex
