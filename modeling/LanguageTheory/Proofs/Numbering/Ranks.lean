import LanguageTheory.Proofs.Numbering.Discovery

/-!
# Ranks of numbered values

Value and rank determine one another, and the ranks of listed values follow their first occurrences
(`get_mem_of_append`).
-/

universe u

namespace LanguageTheory.Numbering

variable {σ : Type u} [TotalOrd σ] {n : Numbering σ} {a : σ}

theorem size_eq_length (n : Numbering σ) : n.size = n.toList.length := Array.length_toList.symm

theorem get_mem (n : Numbering σ) (i : Fin n.size) : n.get i ∈ n := by
  rw [← mem_toList, toList, Array.mem_toList_iff]
  exact Array.getElem_mem i.2

theorem get_inj {i j : Fin n.size} (h : n.get i = n.get j) : i = j := by
  have hi := rank?_eq_some_iff.mpr h
  rw [rank?_eq_some_iff.mpr rfl] at hi
  exact (Option.some.inj hi).symm

theorem exists_get_eq (ha : a ∈ n) : ∃ i, n.rank? a = some i ∧ n.get i = a := by
  cases hrank : n.rank? a with
  | none => exact absurd ha (rank?_eq_none_iff.mp hrank)
  | some i => exact ⟨i, rfl, rank?_eq_some_iff.mp hrank⟩

/-- A value that is there is found at its rank. -/
theorem get_getD_rank? (ha : a ∈ n) {other : Fin n.size} :
    n.get ((n.rank? a).getD other) = a := by
  obtain ⟨i, hrank, hget⟩ := exists_get_eq ha
  rw [hrank, Option.getD_some, hget]

theorem getElem?_toList (i : Fin n.size) : n.toList[i.val]? = some (n.get i) := by
  rw [toList, Array.getElem?_toList]
  exact Array.getElem?_eq_getElem i.2

theorem nodup_toList (n : Numbering σ) : n.toList.Nodup := by
  rw [List.nodup_iff_pairwise_ne, List.pairwise_iff_getElem]
  intro i j hi hj hij hsame
  have hsize : n.toList.length = n.size := n.size_eq_length.symm
  have hget : n.get ⟨i, hsize ▸ hi⟩ = n.get ⟨j, hsize ▸ hj⟩ := by
    rw [← Option.some.injEq, ← getElem?_toList, ← getElem?_toList, List.getElem?_eq_getElem hi,
      List.getElem?_eq_getElem hj, hsame]
  exact Nat.ne_of_lt hij (congrArg Fin.val (get_inj hget))

/-- A numbering has as many values as a listing of them without repetitions. -/
theorem size_eq_of_nodup {l : List σ} (hl : l.Nodup) (h : ∀ a, a ∈ n ↔ a ∈ l) :
    n.size = l.length := by
  have hperm : n.toList.Perm l := (List.perm_ext_iff_of_nodup n.nodup_toList hl).mpr h
  rw [size_eq_length, hperm.length_eq]

/-- The rank of a value is its place. -/
theorem idxOf_toList (i : Fin n.size) : n.toList.idxOf (n.get i) = i := by
  obtain ⟨hi, hget⟩ := List.getElem?_eq_some_iff.mp (getElem?_toList i)
  rw [← hget]
  exact n.nodup_toList.idxOf_getElem i hi

theorem pairwise_get {r : σ → σ → Prop} (h : n.toList.Pairwise r) {i j : Fin n.size}
    (hij : i < j) : r (n.get i) (n.get j) := by
  obtain ⟨hi, hgeti⟩ := List.getElem?_eq_some_iff.mp (getElem?_toList i)
  obtain ⟨hj, hgetj⟩ := List.getElem?_eq_some_iff.mp (getElem?_toList j)
  rw [← hgeti, ← hgetj]
  exact List.pairwise_iff_getElem.mp h i j hi hj hij

theorem toList_ofList_of_nodup {l : List σ} (hl : l.Nodup) : (ofList l).toList = l := by
  rw [toList_ofList]
  exact unseen_eq_self hl fun a _ => List.not_mem_nil

/-- When values are numbered in the order of a list, a value is preceded by those of lower rank. -/
theorem get_mem_of_append {before after : List σ} {i j : Fin n.size}
    (hn : n.toList = unseen [] (before ++ n.get j :: after)) (hij : i < j) :
    n.get i ∈ before := by
  have hnodup : n.toList.Nodup := hn ▸ nodup_unseen
  have hfirst : n.get j ∈ unseen [] (before ++ [n.get j]) :=
    mem_unseen.mpr ⟨List.mem_append_right before (List.mem_singleton_self _), List.not_mem_nil⟩
  have hlast : (unseen (before ++ []) [n.get j]).length ≤ [n.get j].length := length_unseen_le
  rw [← List.singleton_append, ← List.append_assoc, unseen_append] at hn
  obtain ⟨k, hk, hget⟩ := List.mem_iff_getElem.mp hfirst
  -- the value is in the list once, so the rank is its place up to the first occurrence
  have hkj : k = j.val := by
    have hsame : n.toList[k]? = n.toList[j.val]? := by
      rw [getElem?_toList, hn, List.getElem?_append_left hk, List.getElem?_eq_getElem hk, hget]
    have hlt : k < n.toList.length := by
      rw [hn, List.length_append]
      exact Nat.lt_add_right _ hk
    exact (List.getElem?_inj hlt hnodup).mp hsame
  rw [unseen_append] at hn hk
  have hi : i.val < (unseen [] before).length := by
    rw [List.length_append] at hk
    simp only [List.length_singleton] at hlast
    omega
  have hearly := getElem?_toList i
  rw [hn, List.append_assoc, List.getElem?_append_left hi] at hearly
  exact (mem_unseen.mp (List.mem_of_getElem? hearly)).1

theorem get_zero_discover {next : σ → List σ} {depth : Nat} {first : σ} :
    (discover next depth first).get ⟨0, size_discover_pos next depth first⟩ = first := by
  have hhead : (discover next depth first).toList[0]? = some first := by
    rw [toList_discover, layersBelow, List.range_succ_eq_map, List.flatMap_cons, layer,
      List.singleton_append, unseen_cons_of_not_mem List.not_mem_nil, List.getElem?_cons_zero]
  exact Option.some.inj ((getElem?_toList _).symm.trans hhead)

end LanguageTheory.Numbering
