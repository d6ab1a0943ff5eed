import LanguageTheory.Proofs.Numbering.Ranks

/-!
# Discovery one value after another

The values of a search are numbered layer by layer. They have the same order when the search follows
one value after another, in the order of their numbers, and numbers the successors of each that are
new (`toList_discover_eq_unseen`). Until all values are numbered there is one left to follow
(`lt_length_met`).
-/

universe u

namespace LanguageTheory.Numbering

variable {σ : Type u} [TotalOrd σ] {next : σ → List σ} {first a : σ} {values l : List σ}
  {n : Numbering σ} {i depth : Nat}

/-! ## Adding values -/

theorem add_eq_self (ha : a ∈ n) : n.add a = n := by
  unfold add
  split
  next => rfl
  next hnone => exact absurd ha (numbers_eq_none_iff.mp hnone)

theorem ofList_append_singleton : ofList (l ++ [a]) = (ofList l).add a := by
  rw [ofList, addAll, List.foldl_append]
  rfl

/-! ## What has been met -/

/-- What the search has met when it has followed the first `i` values. -/
def met (next : σ → List σ) (first : σ) (values : List σ) (i : Nat) : List σ :=
  first :: (values.take i).flatMap next

omit [TotalOrd σ] in
theorem met_succ (hi : i < values.length) :
    met next first values (i + 1) = met next first values i ++ next values[i] := by
  rw [met, List.take_succ_eq_append_getElem hi, List.flatMap_append, List.flatMap_singleton, met,
    List.cons_append]

omit [TotalOrd σ] in
theorem prefix_met (i : Nat) : met next first values i <+: first :: values.flatMap next := by
  refine ⟨(values.drop i).flatMap next, ?_⟩
  rw [met, List.cons_append, ← List.flatMap_append, List.take_append_drop]

omit [TotalOrd σ] in
theorem layersBelow_succ_eq_cons (k : Nat) :
    layersBelow next first (k + 1) = first :: (layersBelow next first k).flatMap next := by
  rw [layersBelow, List.range_succ_eq_map, List.flatMap_cons, List.flatMap_map, layersBelow,
    List.flatMap_assoc]
  rfl

/-- When all that has been met has been followed, nothing else is ever met. -/
theorem mem_met_of_mem_layer (hinitial : unseen [] (met next first values i) <+: values)
    (hend : (unseen [] (met next first values i)).length ≤ i) {k : Nat}
    (ha : a ∈ layer next first k) : a ∈ met next first values i := by
  have hfollowed : ∀ b ∈ met next first values i, b ∈ values.take i := by
    intro b hb
    have hnew : b ∈ unseen [] (met next first values i) := mem_unseen.mpr ⟨hb, List.not_mem_nil⟩
    rw [List.prefix_iff_eq_take.mp hinitial] at hnew
    exact (List.take_sublist_take_left hend).subset hnew
  induction k generalizing a with
  | zero =>
      rw [List.mem_singleton.mp ha]
      exact List.mem_cons_self
  | succ k ih =>
      obtain ⟨b, hb, hab⟩ := List.mem_flatMap.mp ha
      exact List.mem_cons_of_mem _ (List.mem_flatMap.mpr ⟨b, hfollowed b (ih hb), hab⟩)

section Closed

variable
  (hdepth : ∀ l : List σ, l.Nodup → (∀ a ∈ l, ∃ k, a ∈ layer next first k) → l.length ≤ depth)
include hdepth

/-- Following all values in turn meets them in their order. -/
theorem toList_discover_eq_unseen : (discover next depth first).toList =
    unseen [] (first :: (discover next depth first).toList.flatMap next) := by
  have hclosed : unseen [] (layersBelow next first (depth + 1 + 1)) =
      (discover next depth first).toList := by
    rw [unseen_layersBelow_succ, ← toList_discover]
    have hnone : ∀ a ∈ layer next first (depth + 1), a ∈ (discover next depth first).toList := by
      intro a ha
      exact (mem_discover_iff hdepth).mpr ⟨_, ha⟩
    rw [unseen_eq_nil hnone, List.append_nil]
  have hfollow : unseen [first] ((discover next depth first).toList.flatMap next) =
      unseen [first] ((layersBelow next first (depth + 1)).flatMap next) := by
    rw [toList_discover]
    exact unseen_flatMap fun a ha => absurd ha List.not_mem_nil
  rw [unseen_cons_of_not_mem List.not_mem_nil, hfollow, ← unseen_cons_of_not_mem List.not_mem_nil,
    ← layersBelow_succ_eq_cons, hclosed]

/-- What is met first is numbered first. -/
theorem prefix_unseen (hl : l <+: first :: (discover next depth first).toList.flatMap next) :
    unseen [] l <+: (discover next depth first).toList := by
  obtain ⟨rest, hrest⟩ := hl
  rw [toList_discover_eq_unseen hdepth, ← hrest, unseen_append]
  exact List.prefix_append _ _

/-- As long as there are values to be numbered, one that is numbered is to be followed. -/
theorem lt_length_met (hi : i < (discover next depth first).size) :
    i < (unseen [] (met next first (discover next depth first).toList i)).length := by
  rw [size_eq_length] at hi
  by_contra hend
  have hsubset : (discover next depth first).toList ⊆
      unseen [] (met next first (discover next depth first).toList i) := by
    intro a ha
    obtain ⟨k, hk⟩ := (mem_discover_iff hdepth).mp ha
    have hmet : a ∈ met next first (discover next depth first).toList i :=
      mem_met_of_mem_layer (prefix_unseen hdepth (prefix_met i)) (Nat.le_of_not_lt hend) hk
    exact mem_unseen.mpr ⟨hmet, List.not_mem_nil⟩
  have hle := (nodup_toList _).length_le_of_subset hsubset
  omega

end Closed

end LanguageTheory.Numbering
