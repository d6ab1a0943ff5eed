/-!
# Counting

A search or a refinement ends because something is used up: the elements of a fixed list that
still pass a test become fewer.
-/

universe u

namespace LanguageTheory

/-- A stricter test leaves fewer elements, when some element tells the two tests apart. -/
theorem length_filter_lt {α : Type u} {l : List α} {p q : α → Bool} (hpq : ∀ a, p a → q a)
    {a : α} (ha : a ∈ l) (hq : q a) (hp : ¬ p a) :
    (l.filter p).length < (l.filter q).length := by
  simp only [← List.countP_eq_length_filter]
  induction l with
  | nil => exact absurd ha List.not_mem_nil
  | cons b l ih =>
      have hle : l.countP p ≤ l.countP q := List.countP_mono_left fun c _ => hpq c
      rcases List.mem_cons.mp ha with rfl | ha
      · rw [List.countP_cons_of_neg hp, List.countP_cons_of_pos hq]
        omega
      · have hlt := ih ha
        by_cases hpb : p b
        · rw [List.countP_cons_of_pos hpb, List.countP_cons_of_pos (hpq b hpb)]
          omega
        · rw [List.countP_cons_of_neg hpb, List.countP_cons]
          omega

end LanguageTheory
