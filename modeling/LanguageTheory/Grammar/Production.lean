import LanguageTheory.SortedSet

/-!
# Productions

A production replaces a variable by a list of symbols. Symbols are characters; which of them are
variables is the grammar's business. A kind of grammar may restrict where variables stand.
-/

namespace LanguageTheory

/-- A rule of a grammar; an empty right-hand side erases the variable. -/
structure Production where
  lhs : Char
  rhs : List Char
deriving DecidableEq

namespace Production

/-- The two sides, by which productions are compared. -/
def sides (p : Production) : List (List Char) := [[p.lhs], p.rhs]

/-- Productions are ordered by their left-hand sides, then by their right-hand sides. -/
instance : Ord Production := ⟨compareOn sides⟩

instance : Std.TransOrd Production := inferInstanceAs (Std.TransCmp (compareOn sides))

theorem sides_inj {p q : Production} (h : p.sides = q.sides) : p = q := by
  cases p
  cases q
  simp_all [sides]

instance : TotalOrd Production where
  eq_of_compare h := sides_inj (Std.LawfulEqOrd.eq_of_compare h)
  decEq := inferInstance

/-- Productions of one variable are ordered by their right-hand sides. -/
theorem below_iff {p q : Production} :
    Below p q ↔ p.lhs < q.lhs ∨ p.lhs = q.lhs ∧ p.rhs < q.rhs := by
  have hsides : Below p q ↔ Below p.sides q.sides := Iff.rfl
  rw [hsides, sides, sides]
  simp [Below.cons_iff, Below.not_nil, Below.char_iff, Below.chars_iff]

/-- The text of a production; `λ` stands for an empty right-hand side. -/
def toChars (p : Production) : List Char :=
  p.lhs :: " -> ".toList ++ if p.rhs.isEmpty then ['λ'] else p.rhs

/-- The text of a production. -/
def display (p : Production) : String := String.ofList p.toChars

/-- Exchanges first and last symbols of the right-hand side, and so on. -/
def reversed (p : Production) : Production := { p with rhs := p.rhs.reverse }

end Production

/-- Where variables may stand on right-hand sides. -/
inductive Kind where
  /-- Anywhere. -/
  | contextFree
  /-- Only last. -/
  | rightLinear
  /-- Only first. -/
  | leftLinear
deriving DecidableEq

namespace Kind

/-- The right-hand sides that a kind admits. -/
def Admits (kind : Kind) (vars : SortedSet Char) (rhs : List Char) : Prop :=
  match kind with
  | contextFree => True
  | rightLinear => ∀ c ∈ rhs.dropLast, c ∉ vars
  | leftLinear => ∀ c ∈ rhs.tail, c ∉ vars

instance (kind : Kind) (vars : SortedSet Char) (rhs : List Char) :
    Decidable (kind.Admits vars rhs) :=
  match kind with
  | contextFree => instDecidableTrue
  | rightLinear => List.decidableBAll (· ∉ vars) rhs.dropLast
  | leftLinear => List.decidableBAll (· ∉ vars) rhs.tail

/-- The kind of the reversed grammar. -/
def reversed : Kind → Kind
  | contextFree => contextFree
  | rightLinear => leftLinear
  | leftLinear => rightLinear

/-- The name of a kind. -/
def name : Kind → String
  | contextFree => "ContextFree"
  | rightLinear => "RightLinear"
  | leftLinear => "LeftLinear"

variable {kind : Kind} {vars others : SortedSet Char} {rhs : List Char}

/-- Deleting symbols is admitted. -/
theorem Admits.sublist {shorter : List Char} (h : kind.Admits vars rhs)
    (hsub : shorter.Sublist rhs) : kind.Admits vars shorter := by
  cases kind with
  | contextFree => trivial
  | rightLinear =>
      have hdrop : shorter.dropLast.Sublist rhs.dropLast := by
        rw [← List.reverse_sublist, ← List.tail_reverse, ← List.tail_reverse]
        exact hsub.reverse.tail
      exact fun c hc => h c (hdrop.subset hc)
  | leftLinear => exact fun c hc => h c (hsub.tail.subset hc)

/-- With other variables a right-hand side stays admitted, if none of its symbols becomes one. -/
theorem Admits.imp (h : kind.Admits vars rhs)
    (hvars : ∀ c ∈ rhs, c ∈ others → c ∈ vars) : kind.Admits others rhs := by
  cases kind with
  | contextFree => trivial
  | rightLinear => exact fun c hc hother => h c hc (hvars c (List.dropLast_subset rhs hc) hother)
  | leftLinear => exact fun c hc hother => h c hc (hvars c (List.mem_of_mem_tail hc) hother)

theorem Admits.reversed (h : kind.Admits vars rhs) :
    kind.reversed.Admits vars rhs.reverse := by
  cases kind with
  | contextFree => trivial
  | rightLinear =>
      intro c hc
      rw [List.tail_reverse] at hc
      exact h c (List.mem_reverse.mp hc)
  | leftLinear =>
      intro c hc
      rw [List.dropLast_reverse] at hc
      exact h c (List.mem_reverse.mp hc)

/-- One symbol, or none, is admitted by every kind. -/
theorem admits_of_length_le (h : rhs.length ≤ 1) : kind.Admits vars rhs := by
  match rhs, h with
  | [], _ => cases kind <;> simp [Admits]
  | [_], _ => cases kind <;> simp [Admits]

end Kind

end LanguageTheory
