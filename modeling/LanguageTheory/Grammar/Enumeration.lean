import LanguageTheory.Grammar.Basic
import LanguageTheory.Numbering.Discovery

/-!
# Enumeration of words

The words of derivations of bounded length, shorter words first. Replacing only the leftmost
variable is enough, and a form met before need not be expanded again.
-/

namespace LanguageTheory

/-- A word with its length, which is compared first. -/
structure ShortlexWord where
  length : Nat
  chars : List Char
  length_eq : length = chars.length
deriving DecidableEq

namespace ShortlexWord

/-- A word of characters. -/
def ofChars (chars : List Char) : ShortlexWord := ⟨chars.length, chars, rfl⟩

@[simp] theorem chars_ofChars (chars : List Char) : (ofChars chars).chars = chars := rfl

theorem ext {v w : ShortlexWord} (h : v.chars = w.chars) : v = w := by
  obtain ⟨_, _, rfl⟩ := v
  obtain ⟨_, _, rfl⟩ := w
  cases h
  rfl

/-- Words are ordered by length, words of one length lexicographically. -/
instance : Ord ShortlexWord := ⟨compareLex (compareOn length) (compareOn chars)⟩

instance : Std.TransOrd ShortlexWord :=
  inferInstanceAs (Std.TransCmp (compareLex (compareOn length) (compareOn chars)))

instance : TotalOrd ShortlexWord where
  eq_of_compare {v w} h := by
    simp only [compare, compareLex, Ordering.then_eq_eq] at h
    exact ext (Std.LawfulEqOrd.eq_of_compare h.2)
  decEq := inferInstance

end ShortlexWord

namespace Grammar

/-- What stands before the leftmost variable, the variable, and what stands after it. -/
def splitAtVariable (g : Grammar) : List Char → Option (List Char × Char × List Char)
  | [] => none
  | c :: rest =>
      if c ∈ g.vars then some ([], c, rest)
      else (g.splitAtVariable rest).map fun (before, head, after) =>
        (c :: before, head, after)

/-- The forms that one production makes of the leftmost variable. -/
def leftmostSuccessors (g : Grammar) (form : List Char) : List (List Char) :=
  match g.splitAtVariable form with
  | none => []
  | some (before, head, after) =>
      (g.productionsOf head).map fun p => before ++ p.rhs ++ after

/-- The forms that at most `depth` leftmost steps make of the start variable. -/
def formsWithin (g : Grammar) (depth : Nat) : Numbering ShortlexWord :=
  .discover (fun form => (g.leftmostSuccessors form.chars).map .ofChars) depth
    (.ofChars [g.start])

/-- The words of derivations of at most `depth` steps, and the empty word if it is a member. -/
def wordsWithin (g : Grammar) (depth : Nat) : SortedSet ShortlexWord :=
  let forms := (g.formsWithin depth).toList
  let derived := .ofList (forms.filter fun form => form.chars.all fun c => c ∉ g.vars)
  if g.acceptsEmpty then insert (.ofChars []) derived else derived

/-- The words of derivations of at most `depth` steps, shorter words first. -/
def produce (g : Grammar) (depth : Nat) : List (List Char) :=
  (g.wordsWithin depth).toList.map ShortlexWord.chars

end Grammar

end LanguageTheory
