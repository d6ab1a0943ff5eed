/-!
# Sweeps

A rule is applied in place to one item after another, so a visit sees what the visits before it in
the same sweep have changed. Sweeps go on until one of them changes nothing. Every change makes the
state smaller, which bounds their number (`sweeps_settle_add_size_le`), and in the end no visit
would change anything, whatever the order of the items (`visit_settle`).
-/

namespace LanguageTheory

/-- A rule with the items that it is applied to in turn. A visit gives a new state when it changes
anything, and the new state is smaller. -/
structure Sweep (σ ι : Type) where
  items : List ι
  visit : σ → ι → Option σ
  size : σ → Nat
  size_lt : ∀ {s t : σ} {i : ι}, i ∈ items → visit s i = some t → size t < size s

/-- The state that sweeps end in, and how many there have been. -/
structure Settled (σ : Type) where
  state : σ
  sweeps : Nat

namespace Sweep

variable {σ ι : Type} {r : Sweep σ ι} {s t : σ} {i : ι} {changed : Bool} {l : List ι}

/-- Visits an item, and notes whether that has changed anything. -/
def note (r : Sweep σ ι) (seen : σ × Bool) (i : ι) : σ × Bool :=
  match r.visit seen.1 i with
  | none => seen
  | some t => (t, true)

/-- One sweep: the state after it, and whether it has changed anything. -/
def once (r : Sweep σ ι) (s : σ) : σ × Bool := r.items.foldl r.note (s, false)

theorem note_eq_self (h : r.visit s i = none) : r.note (s, changed) i = (s, changed) := by
  simp [note, h]

theorem note_eq_changed (h : r.visit s i = some t) : r.note (s, changed) i = (t, true) := by
  simp [note, h]

/-- Either no visit changes anything, or the state gets smaller and the change is noted. -/
theorem foldl_note (changed : Bool) (hl : l ⊆ r.items) :
    (∀ i ∈ l, r.visit s i = none) ∧ l.foldl r.note (s, changed) = (s, changed) ∨
      (l.foldl r.note (s, changed)).2 = true ∧
        r.size (l.foldl r.note (s, changed)).1 < r.size s := by
  induction l generalizing s changed with
  | nil => simp
  | cons i l ih =>
      obtain ⟨hi, hl⟩ := List.cons_subset.mp hl
      rw [List.foldl_cons]
      cases hvisit : r.visit s i with
      | none =>
          rw [note_eq_self hvisit]
          exact (ih changed hl).imp_left fun hrest => ⟨by simpa [hvisit] using hrest.1, hrest.2⟩
      | some t =>
          rw [note_eq_changed hvisit]
          right
          have hlt := r.size_lt hi hvisit
          rcases ih (s := t) true hl with hsame | hsmaller
          · simpa [hsame.2] using hlt
          · exact ⟨hsmaller.1, Nat.lt_trans hsmaller.2 hlt⟩

theorem size_once_lt (hchanged : (r.once s).2 = true) : r.size (r.once s).1 < r.size s := by
  rcases foldl_note (r := r) (s := s) false (List.Subset.refl r.items) with
    hsame | hsmaller
  · simp [once, hsame.2] at hchanged
  · exact hsmaller.2

/-- A sweep without a change has found nothing to change. -/
theorem once_unchanged (hunchanged : (r.once s).2 = false) :
    (r.once s).1 = s ∧ ∀ i ∈ r.items, r.visit s i = none := by
  rcases foldl_note (r := r) (s := s) false (List.Subset.refl r.items) with
    hsame | hsmaller
  · exact ⟨congrArg Prod.fst hsame.2, hsame.1⟩
  · exact absurd (hunchanged.symm.trans hsmaller.1) Bool.false_ne_true

/-- What visits keep is kept by a sweep. -/
theorem once_induction {motive : σ → Prop}
    (hvisit : ∀ {s t i}, i ∈ r.items → motive s → r.visit s i = some t → motive t)
    (hs : motive s) : motive (r.once s).1 := by
  have hfold : ∀ (l : List ι) (seen : σ × Bool), l ⊆ r.items → motive seen.1 →
      motive (l.foldl r.note seen).1 := by
    intro l
    induction l with
    | nil => exact fun _ _ hseen => hseen
    | cons i l ih =>
        intro seen hl hseen
        obtain ⟨hi, hl⟩ := List.cons_subset.mp hl
        apply ih _ hl
        unfold note
        split
        next => exact hseen
        next t ht => exact hvisit hi hseen ht
  exact hfold r.items (s, false) (List.Subset.refl r.items) hs

/-! ## Sweeps until nothing changes -/

/-- Sweeps until a sweep changes nothing. -/
def settle (r : Sweep σ ι) (s : σ) : Settled σ :=
  let after := r.once s
  if _hchanged : after.2 then
    let settled := r.settle after.1
    ⟨settled.state, settled.sweeps + 1⟩
  else ⟨after.1, 1⟩
termination_by r.size s
decreasing_by exact size_once_lt _hchanged

/-- In the end no visit would change anything. -/
theorem visit_settle (hi : i ∈ r.items) : r.visit (r.settle s).state i = none := by
  fun_induction settle r s with
  | case1 s after hchanged settled ih => exact ih
  | case2 s after hunchanged =>
      obtain ⟨hsame, hnone⟩ := once_unchanged (Bool.eq_false_iff.mpr hunchanged)
      rw [hsame]
      exact hnone i hi

/-- What visits keep is kept to the end. -/
theorem settle_induction {motive : σ → Prop}
    (hvisit : ∀ {s t i}, i ∈ r.items → motive s → r.visit s i = some t → motive t)
    (hs : motive s) : motive (r.settle s).state := by
  fun_induction settle r s with
  | case1 s after hchanged settled ih => exact ih (once_induction hvisit hs)
  | case2 s after hunchanged => exact once_induction hvisit hs

/-- Every sweep but the last one makes the state smaller. -/
theorem sweeps_settle_add_size_le :
    (r.settle s).sweeps + r.size (r.settle s).state ≤ r.size s + 1 := by
  fun_induction settle r s with
  | case1 s after hchanged settled ih =>
      have hlt : r.size after.1 < r.size s := size_once_lt hchanged
      calc settled.sweeps + 1 + r.size settled.state
          = settled.sweeps + r.size settled.state + 1 := Nat.add_right_comm _ _ _
        _ ≤ r.size after.1 + 1 + 1 := Nat.succ_le_succ ih
        _ ≤ r.size s + 1 := Nat.succ_le_succ hlt
  | case2 s after hunchanged =>
      obtain ⟨hsame, _⟩ := once_unchanged (Bool.eq_false_iff.mpr hunchanged)
      rw [hsame]
      exact Nat.le_of_eq (Nat.add_comm _ _)

theorem sweeps_settle_le : (r.settle s).sweeps ≤ r.size s + 1 :=
  Nat.le_trans (Nat.le_add_right _ _) sweeps_settle_add_size_le

end Sweep

end LanguageTheory
