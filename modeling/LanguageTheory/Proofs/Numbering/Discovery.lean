import LanguageTheory.Numbering.Discovery
import Mathlib.Data.List.Basic

/-!
# The order of discovery

A breadth-first search expands only values that are new, but the numbering is the same as if whole
layers of successors were added one after the other (`toList_discover`). When there are no more
values than layers, the values discovered are closed under successors (`mem_discover_of_next`).
-/

universe u

namespace LanguageTheory.Numbering

variable {σ : Type u} {next : σ → List σ} {first a b : σ} {seen l m : List σ} {k : Nat}

/-! ## Layers -/

/-- The values that a number of steps leads to, in the order of the steps. -/
def layer (next : σ → List σ) (first : σ) : Nat → List σ
  | 0 => [first]
  | k + 1 => (layer next first k).flatMap next

/-- The layers before a given one, in a row. -/
def layersBelow (next : σ → List σ) (first : σ) (k : Nat) : List σ :=
  (List.range k).flatMap (layer next first)

theorem layersBelow_succ :
    layersBelow next first (k + 1) = layersBelow next first k ++ layer next first k := by
  rw [layersBelow, List.range_succ, List.flatMap_append, List.flatMap_singleton]
  rfl

theorem mem_layersBelow : a ∈ layersBelow next first k ↔ ∃ i < k, a ∈ layer next first i := by
  simp [layersBelow, List.mem_flatMap]

theorem mem_layersBelow_of_next (ha : a ∈ layersBelow next first k) (hb : b ∈ next a) :
    b ∈ layersBelow next first (k + 1) := by
  obtain ⟨i, hi, hmem⟩ := mem_layersBelow.mp ha
  exact mem_layersBelow.mpr ⟨i + 1, Nat.succ_lt_succ hi, List.mem_flatMap.mpr ⟨a, hmem, hb⟩⟩

/-- The first of some steps may be taken on its own. -/
theorem mem_layer_succ_iff :
    a ∈ layer next first (k + 1) ↔ ∃ b ∈ next first, a ∈ layer next b k := by
  induction k generalizing a with
  | zero => simp [layer]
  | succ k ih =>
      rw [layer, List.mem_flatMap]
      constructor
      · rintro ⟨c, hc, hac⟩
        obtain ⟨b, hb, hbc⟩ := ih.mp hc
        exact ⟨b, hb, List.mem_flatMap.mpr ⟨c, hbc, hac⟩⟩
      · rintro ⟨b, hb, hba⟩
        obtain ⟨c, hbc, hac⟩ := List.mem_flatMap.mp hba
        exact ⟨c, ih.mpr ⟨b, hb, hbc⟩, hac⟩

/-- Layers of renamed values are renamed layers. -/
theorem layer_map {τ : Type u} {f : σ → τ} {other : τ → List τ}
    (hother : ∀ a, other (f a) = (next a).map f) :
    layer other (f first) k = (layer next first k).map f := by
  induction k with
  | zero => rfl
  | succ k ih =>
      rw [layer, ih, layer, List.flatMap_map, List.map_flatMap]
      exact List.flatMap_congr fun a _ => hother a

/-- When a layer has no new value, no layer has one any more. -/
theorem mem_layersBelow_of_layer_subset
    (hlayer : ∀ a ∈ layer next first k, a ∈ layersBelow next first k) {i : Nat}
    (ha : a ∈ layer next first i) : a ∈ layersBelow next first k := by
  induction i generalizing a with
  | zero =>
      cases k with
      | zero => exact hlayer a ha
      | succ k => exact mem_layersBelow.mpr ⟨0, Nat.succ_pos k, ha⟩
  | succ i ih =>
      obtain ⟨c, hc, hac⟩ := List.mem_flatMap.mp ha
      have hnext := mem_layersBelow_of_next (ih hc) hac
      rw [layersBelow_succ, List.mem_append] at hnext
      exact hnext.elim id (hlayer a)

variable [TotalOrd σ] {n known : Numbering σ}

/-! ## Unseen values -/

/-- The values of a list that have not been seen, each at its first occurrence. -/
def unseen (seen : List σ) : List σ → List σ
  | [] => []
  | a :: l => if seen.contains a then unseen seen l else a :: unseen (a :: seen) l

theorem unseen_cons_of_mem (ha : a ∈ seen) : unseen seen (a :: l) = unseen seen l :=
  if_pos (List.contains_iff_mem.mpr ha)

theorem unseen_cons_of_not_mem (ha : a ∉ seen) :
    unseen seen (a :: l) = a :: unseen (a :: seen) l :=
  if_neg fun hcontains => ha (List.contains_iff_mem.mp hcontains)

theorem mem_unseen : a ∈ unseen seen l ↔ a ∈ l ∧ a ∉ seen := by
  induction l generalizing seen with
  | nil => simp [unseen]
  | cons b l ih =>
      by_cases hmem : b ∈ seen
      · rw [unseen_cons_of_mem hmem, ih, List.mem_cons]
        constructor
        · intro h
          exact ⟨.inr h.1, h.2⟩
        · intro h
          refine ⟨h.1.resolve_left ?_, h.2⟩
          intro hab
          exact h.2 (hab ▸ hmem)
      · rw [unseen_cons_of_not_mem hmem, List.mem_cons, ih, List.mem_cons, List.mem_cons]
        by_cases hab : a = b
        · subst hab
          simp [hmem]
        · simp [hab]

theorem nodup_unseen : (unseen seen l).Nodup := by
  induction l generalizing seen with
  | nil => exact List.nodup_nil
  | cons b l ih =>
      by_cases hmem : b ∈ seen
      · rw [unseen_cons_of_mem hmem]
        exact ih
      · rw [unseen_cons_of_not_mem hmem]
        refine List.nodup_cons.mpr ⟨?_, ih⟩
        intro hagain
        exact (mem_unseen.mp hagain).2 List.mem_cons_self

theorem unseen_congr {seen' : List σ} (h : ∀ a, a ∈ seen ↔ a ∈ seen') :
    unseen seen l = unseen seen' l := by
  induction l generalizing seen seen' with
  | nil => rfl
  | cons b l ih =>
      have hrest : unseen (b :: seen) l = unseen (b :: seen') l := by
        apply ih
        intro a
        rw [List.mem_cons, List.mem_cons, h]
      by_cases hmem : b ∈ seen
      · rw [unseen_cons_of_mem hmem, unseen_cons_of_mem ((h b).mp hmem), ih h]
      · have hmem' : b ∉ seen' := fun hb => hmem ((h b).mpr hb)
        rw [unseen_cons_of_not_mem hmem, unseen_cons_of_not_mem hmem', hrest]

theorem unseen_eq_nil (h : ∀ a ∈ l, a ∈ seen) : unseen seen l = [] := by
  apply List.eq_nil_iff_forall_not_mem.mpr
  intro a ha
  obtain ⟨hmem, hnew⟩ := mem_unseen.mp ha
  exact hnew (h a hmem)

theorem unseen_eq_self (hnodup : l.Nodup) (hnew : ∀ a ∈ l, a ∉ seen) : unseen seen l = l := by
  induction l generalizing seen with
  | nil => rfl
  | cons b l ih =>
      obtain ⟨hb, hnodup⟩ := List.nodup_cons.mp hnodup
      rw [unseen_cons_of_not_mem (hnew b List.mem_cons_self), ih hnodup]
      intro a ha hseen
      rcases List.mem_cons.mp hseen with rfl | hold
      · exact hb ha
      · exact hnew a (List.mem_cons_of_mem b ha) hold

theorem unseen_append : unseen seen (l ++ m) = unseen seen l ++ unseen (l ++ seen) m := by
  induction l generalizing seen with
  | nil => rfl
  | cons b l ih =>
      rw [List.cons_append]
      by_cases hmem : b ∈ seen
      · have hsame : ∀ a, a ∈ l ++ seen ↔ a ∈ b :: l ++ seen := by
          intro a
          simp only [List.mem_append, List.mem_cons]
          by_cases hab : a = b
          · subst hab
            simp [hmem]
          · simp [hab]
        rw [unseen_cons_of_mem hmem, unseen_cons_of_mem hmem, ih, unseen_congr hsame]
      · have hsame : ∀ a, a ∈ l ++ b :: seen ↔ a ∈ b :: l ++ seen := by
          intro a
          simp only [List.mem_append, List.mem_cons]
          exact or_left_comm.trans or_assoc.symm
        rw [unseen_cons_of_not_mem hmem, unseen_cons_of_not_mem hmem, ih, List.cons_append,
          unseen_congr hsame]

theorem unseen_append_of_mem (ha : a ∈ l) : unseen [] (l ++ [a]) = unseen [] l := by
  rw [unseen_append, List.append_nil, unseen_cons_of_mem ha]
  exact List.append_nil _

theorem unseen_append_of_not_mem (ha : a ∉ l) : unseen [] (l ++ [a]) = unseen [] l ++ [a] := by
  rw [unseen_append, List.append_nil, unseen_cons_of_not_mem ha]
  rfl

/-- Successors of seen values are known, so they need not be looked at again. -/
theorem unseen_flatMap {known : List σ} (hseen : ∀ a ∈ seen, ∀ b ∈ next a, b ∈ known) :
    unseen known ((unseen seen l).flatMap next) = unseen known (l.flatMap next) := by
  induction l generalizing seen known with
  | nil => rfl
  | cons c l ih =>
      rw [List.flatMap_cons, unseen_append]
      by_cases hmem : c ∈ seen
      · have hsame : ∀ a, a ∈ known ↔ a ∈ next c ++ known := by
          intro a
          rw [List.mem_append]
          exact ⟨.inr, fun h => h.elim (hseen c hmem a) id⟩
        rw [unseen_cons_of_mem hmem, unseen_eq_nil (hseen c hmem), List.nil_append, ih hseen,
          unseen_congr hsame]
      · -- the successors of this value are known from now on, as those of all seen values are
        rw [unseen_cons_of_not_mem hmem, List.flatMap_cons, unseen_append, ih]
        intro a ha b hb
        rw [List.mem_append]
        rcases List.mem_cons.mp ha with rfl | hold
        · exact .inl hb
        · exact .inr (hseen a hold b hb)

theorem length_unseen_le : (unseen seen l).length ≤ l.length := by
  induction l generalizing seen with
  | nil => exact Nat.le_refl 0
  | cons b l ih =>
      by_cases hmem : b ∈ seen
      · rw [unseen_cons_of_mem hmem]
        exact Nat.le_succ_of_le ih
      · rw [unseen_cons_of_not_mem hmem]
        exact Nat.succ_le_succ ih

theorem toList_addAll : (n.addAll l).toList = n.toList ++ unseen n.toList l := by
  induction l generalizing n with
  | nil => exact (List.append_nil _).symm
  | cons a l ih =>
      have hstep : n.addAll (a :: l) = (n.add a).addAll l := rfl
      rw [hstep, ih, toList_add]
      by_cases hmem : a ∈ n
      · rw [if_pos hmem, unseen_cons_of_mem (mem_toList.mpr hmem)]
      · have hsame : ∀ b, b ∈ n.toList ++ [a] ↔ b ∈ a :: n.toList := by
          intro b
          rw [List.mem_append, List.mem_singleton, List.mem_cons, or_comm]
        have hnew : a ∉ n.toList := hmem
        rw [if_neg hmem, unseen_cons_of_not_mem hnew, List.append_assoc, List.singleton_append,
          unseen_congr hsame]

theorem toList_ofList : (ofList l).toList = unseen [] l := toList_addAll

/-! ## Layers of new values -/

/-- The new values of a layer follow those of the layers before. -/
theorem unseen_layersBelow_succ : unseen [] (layersBelow next first (k + 1)) =
    unseen [] (layersBelow next first k) ++
      unseen (unseen [] (layersBelow next first k)) (layer next first k) := by
  rw [layersBelow_succ, unseen_append]
  congr 1
  apply unseen_congr
  intro a
  rw [mem_unseen, List.append_nil]
  simp

theorem layer_subset_of_unseen_eq_nil
    (h : unseen (unseen [] (layersBelow next first k)) (layer next first k) = []) :
    ∀ a ∈ layer next first k, a ∈ layersBelow next first k := by
  intro a ha
  apply Classical.byContradiction
  intro hnew
  have hunseen : a ∈ unseen (unseen [] (layersBelow next first k)) (layer next first k) := by
    refine mem_unseen.mpr ⟨ha, ?_⟩
    intro hold
    exact hnew (mem_unseen.mp hold).1
  rw [h] at hunseen
  exact List.not_mem_nil hunseen

/-- Layers that bring nothing new leave the values as they are. -/
theorem unseen_layersBelow_add (hlayer : ∀ a ∈ layer next first k, a ∈ layersBelow next first k)
    (i : Nat) :
    unseen [] (layersBelow next first (k + i)) = unseen [] (layersBelow next first k) := by
  induction i with
  | zero => rfl
  | succ i ih =>
      have hnone : ∀ a ∈ layer next first (k + i), a ∈ unseen [] (layersBelow next first k) := by
        intro a ha
        exact mem_unseen.mpr ⟨mem_layersBelow_of_layer_subset hlayer ha, List.not_mem_nil⟩
      rw [← Nat.add_assoc, unseen_layersBelow_succ, ih, unseen_eq_nil hnone, List.append_nil]

/-- A search whose known values are those of some layers goes on with the layers after them. -/
theorem toList_grow {depth old : Nat}
    (hknown : known.toList = unseen [] (layersBelow next first (k + 1)))
    (hold : old = (unseen [] (layersBelow next first k)).length) :
    (grow next depth known old).toList = unseen [] (layersBelow next first (k + 1 + depth)) := by
  induction depth generalizing k known old with
  | zero => exact hknown
  | succ depth ih =>
      have hlast : (known.values.extract old known.size).toList =
          unseen (unseen [] (layersBelow next first k)) (layer next first k) := by
        have hdrop : (known.values.extract old known.size).toList = known.toList.drop old := by
          rw [Array.toList_extract, List.extract_eq_take_drop]
          have hlength : (known.values.toList.drop old).length = known.size - old := by
            rw [List.length_drop, Array.length_toList, size]
          exact List.take_of_length_le (Nat.le_of_eq hlength)
        rw [hdrop, hknown, unseen_layersBelow_succ, hold, List.drop_left]
      have hsize : known.size = (unseen [] (layersBelow next first (k + 1))).length := by
        rw [← hknown, toList, Array.length_toList, size]
      simp only [grow]
      split
      next =>
        have hgrown :
            (known.addAll ((known.values.extract old known.size).toList.flatMap next)).toList =
              unseen [] (layersBelow next first (k + 1 + 1)) := by
          rw [toList_addAll, hlast, unseen_flatMap, hknown]
          · exact unseen_layersBelow_succ.symm
          · intro a ha b hb
            have hbelow := (mem_unseen.mp ha).1
            rw [hknown, mem_unseen]
            exact ⟨mem_layersBelow_of_next hbelow hb, List.not_mem_nil⟩
        rw [ih hgrown hsize, Nat.add_assoc (k + 1), Nat.add_comm 1 depth]
      next hnone =>
        -- the last layer had no new value, and so none of the layers to come has one
        have hempty : unseen (unseen [] (layersBelow next first k)) (layer next first k) = [] := by
          rw [unseen_layersBelow_succ, List.length_append] at hsize
          exact List.eq_nil_of_length_eq_zero (by omega)
        have hlayer := layer_subset_of_unseen_eq_nil hempty
        rw [hknown, Nat.add_assoc, unseen_layersBelow_add hlayer, unseen_layersBelow_add hlayer]

/-- A search numbers the values of the layers in their order. -/
theorem toList_discover {depth : Nat} :
    (discover next depth first).toList = unseen [] (layersBelow next first (depth + 1)) := by
  rw [discover, Nat.add_comm depth 1]
  have hstart : (ofList [first]).toList = unseen [] (layersBelow next first (0 + 1)) :=
    toList_ofList
  exact (toList_grow hstart rfl).trans (by rw [Nat.zero_add])

/-- A search finds what some number of steps leads to, up to its depth. -/
theorem mem_discover_iff_exists_le {depth : Nat} :
    a ∈ discover next depth first ↔ ∃ k ≤ depth, a ∈ layer next first k := by
  rw [← mem_toList, toList_discover, mem_unseen, mem_layersBelow]
  simp only [Nat.lt_succ_iff, List.not_mem_nil, not_false_eq_true, and_true]

/-! ## Closure -/

/-- As long as layers bring something new, there are at least as many values as layers. -/
theorem exists_layer_subset {depth : Nat}
    (hdepth : (unseen [] (layersBelow next first (depth + 1))).length ≤ depth) :
    ∃ k ≤ depth, ∀ a ∈ layer next first k, a ∈ layersBelow next first k := by
  apply Classical.byContradiction
  intro hnone
  -- every layer up to the bound adds a value of its own
  have hgrowth : ∀ k ≤ depth + 1, k ≤ (unseen [] (layersBelow next first k)).length := by
    intro k
    induction k with
    | zero => exact fun _ => Nat.zero_le _
    | succ k ih =>
        intro hk
        have hlater := ih (by omega)
        have hnew : unseen (unseen [] (layersBelow next first k)) (layer next first k) ≠ [] := by
          intro hempty
          exact hnone ⟨k, by omega, layer_subset_of_unseen_eq_nil hempty⟩
        have hpos := List.length_pos_iff.mpr hnew
        rw [unseen_layersBelow_succ, List.length_append]
        omega
  have hmany := hgrowth (depth + 1) (Nat.le_refl _)
  omega

section Closed

variable {depth : Nat}
  (hdepth : ∀ l : List σ, l.Nodup → (∀ a ∈ l, ∃ k, a ∈ layer next first k) → l.length ≤ depth)
include hdepth

/-- If the layers have no more values than there are steps, all their values are discovered. -/
theorem mem_discover_iff : a ∈ discover next depth first ↔ ∃ k, a ∈ layer next first k := by
  rw [mem_discover_iff_exists_le]
  constructor
  · rintro ⟨k, _, hmem⟩
    exact ⟨k, hmem⟩
  · rintro ⟨i, hi⟩
    obtain ⟨k, hk, hlayer⟩ :
        ∃ k ≤ depth, ∀ a ∈ layer next first k, a ∈ layersBelow next first k := by
      apply exists_layer_subset
      apply hdepth _ nodup_unseen
      intro b hb
      obtain ⟨j, _, hj⟩ := mem_layersBelow.mp (mem_unseen.mp hb).1
      exact ⟨j, hj⟩
    obtain ⟨j, hj, hmem⟩ := mem_layersBelow.mp (mem_layersBelow_of_layer_subset hlayer hi)
    exact ⟨j, by omega, hmem⟩

theorem mem_discover_of_next (ha : a ∈ discover next depth first) (hb : b ∈ next a) :
    b ∈ discover next depth first := by
  rw [mem_discover_iff hdepth] at ha ⊢
  obtain ⟨k, hk⟩ := ha
  exact ⟨k + 1, List.mem_flatMap.mpr ⟨a, hk, hb⟩⟩

end Closed

end LanguageTheory.Numbering
