/-!
# Types with a total order

Symbols, states, productions and words are all compared by one `compare`, which is transitive,
antisymmetric and equal only on equal values. Sets over such a type have one sorted listing, in
which a search finds the least hit.
-/

universe u v

namespace LanguageTheory

/-- A type whose `compare` is a total order that decides equality. -/
class TotalOrd (α : Type u) extends Ord α, Std.TransOrd α, Std.LawfulEqOrd α where
  /-- Equality is decidable, in agreement with `compare`. -/
  decEq : DecidableEq α

instance (priority := low) {α : Type u} [TotalOrd α] : DecidableEq α := TotalOrd.decEq

instance : TotalOrd Bool := { decEq := inferInstance }

instance : TotalOrd Nat := { decEq := inferInstance }

instance : TotalOrd Int := { decEq := inferInstance }

/-- Characters are ordered by code point. -/
instance : TotalOrd Char := { decEq := inferInstance }

/-- Strings are ordered lexicographically by code point, a proper initial part first. -/
instance : TotalOrd String := { decEq := inferInstance }

instance {n : Nat} : TotalOrd (Fin n) := { decEq := inferInstance }

/-- Lists are ordered lexicographically, a proper initial part first. -/
instance {α : Type u} [TotalOrd α] : TotalOrd (List α) := { decEq := inferInstance }

variable {α : Type u} [TotalOrd α] {a b c : α}

/-- Strict order, as `compare` gives it. -/
def Below (a b : α) : Prop := compare a b = .lt

instance : DecidableRel (fun a b : α => Below a b) := fun a b =>
  inferInstanceAs (Decidable (compare a b = .lt))

namespace Below

theorem trans (hab : Below a b) (hbc : Below b c) : Below a c :=
  Std.TransCmp.lt_trans hab hbc

theorem irrefl (a : α) : ¬ Below a a := by
  simp [Below, Std.ReflOrd.compare_self]

theorem ne (hab : Below a b) : a ≠ b := by
  rintro rfl
  exact irrefl a hab

theorem asymm (hab : Below a b) : ¬ Below b a := fun hba => irrefl a (hab.trans hba)

/-! ### Lists and characters -/

theorem not_nil (l : List α) : ¬ Below l [] := by
  cases l <;> simp [Below]

theorem nil_cons (a : α) (l : List α) : Below [] (a :: l) := by
  simp [Below]

/-- The first difference decides. -/
theorem cons_iff {l m : List α} : Below (a :: l) (b :: m) ↔ Below a b ∨ a = b ∧ Below l m := by
  simp only [Below, List.compare_eq_compareLex, List.compareLex_cons_cons, Ordering.then_eq_lt,
    Std.LawfulEqOrd.compare_eq_iff_eq]

theorem char_iff {c d : Char} : Below c d ↔ c < d := compareOfLessAndEq_eq_lt

/-- Words of characters are ordered lexicographically by code point. -/
theorem chars_iff {u v : List Char} : Below u v ↔ u < v := by
  induction u generalizing v with
  | nil =>
      cases v with
      | nil => exact iff_of_false (not_nil []) (List.not_lt_nil [])
      | cons d v => exact iff_of_true (nil_cons d v) (List.nil_lt_cons d v)
  | cons c u ih =>
      cases v with
      | nil => exact iff_of_false (not_nil _) (List.not_lt_nil _)
      | cons d v => rw [cons_iff, char_iff, ih, List.cons_lt_cons_iff]

end Below

/-! ## Search in order -/

/-- A search in order finds the value of the least element that has one. -/
theorem findSome?_eq_some_iff_of_pairwise {α : Type u} {β : Type v} {r : α → α → Prop}
    {l : List α} {f : α → Option β} {b : β} (hl : l.Pairwise r)
    (hasymm : ∀ i j, r i j → ¬ r j i) :
    l.findSome? f = some b ↔ ∃ i ∈ l, f i = some b ∧ ∀ j ∈ l, r j i → f j = none := by
  rw [List.findSome?_eq_some_iff]
  constructor
  · rintro ⟨before, i, after, rfl, hvalue, hbefore⟩
    obtain ⟨_, hafter, _⟩ := List.pairwise_append.mp hl
    refine ⟨i, List.mem_append_right before List.mem_cons_self, hvalue, ?_⟩
    intro j hj hji
    rcases List.mem_append.mp hj with hj | hj
    · exact hbefore j hj
    rcases List.mem_cons.mp hj with rfl | hj
    · exact absurd hji (hasymm j j hji)
    · exact absurd hji (hasymm i j ((List.pairwise_cons.mp hafter).1 j hj))
  · rintro ⟨i, hi, hvalue, hleast⟩
    obtain ⟨before, after, rfl⟩ := List.append_of_mem hi
    obtain ⟨_, _, hbefore⟩ := List.pairwise_append.mp hl
    refine ⟨before, i, after, rfl, hvalue, ?_⟩
    intro j hj
    exact hleast j (List.mem_append_left _ hj) (hbefore j hj i List.mem_cons_self)

end LanguageTheory
