import LanguageTheory.Proofs.DFA.Minimize
import LanguageTheory.Proofs.Flat.DFA

/-!
# Reachable states without promises

Reachable states are found by reading rows. They are renumbered through an array with an entry for
every state, and their rows are added one by one. In a well-formed automaton every target has a row,
and every target of a reachable state has a new number, so no index is out of range, and the results
are those of the library (`DFA.reachable?_flat`, `DFA.trim?_flat`).
-/

namespace LanguageTheory

namespace FlatDFA

variable {α : Type} [TotalOrd α]

/-- The places of the listed numbers among themselves, in an array with an entry for every
number. -/
def renumber? (size : Nat) (kept : List Nat) : Option (Array (Option Nat)) :=
  (List.range kept.length).foldlM
    (fun numbers number => do
      let old ← kept[number]?
      setAt? numbers old (some number))
    (.replicate size none)

/-- The rows of kept states, with the new numbers of their targets. -/
def keptRows? (d : FlatDFA α) (kept : List Nat) (numbers : Array (Option Nat)) :
    Option (FlatTable Nat) :=
  (FlatTable.empty d.alphabet.size).pushRows? kept.length d.alphabet.size 0 fun row letter => do
    let old ← kept[row]?
    let target ← d.table.get? old letter
    let number ← numbers[target]?
    return number.getD 0

/-- Keeps the reachable states in their order. -/
def trim? (d : FlatDFA α) : Option (FlatDFA α) := do
  let reached ← d.reachable?
  let numbers ← renumber? d.table.height reached.toList
  let table ← d.keptRows? reached.toList numbers
  let finals ← d.finals.toList.filterMapM fun final => numbers[final]?
  return ⟨d.alphabet, table, .ofList finals⟩

theorem renumber?_eq_some {size : Nat} {kept : List (Fin size)} (hkept : kept.Nodup) :
    renumber? size (kept.map Fin.val) =
      some (.ofFn fun q => if q ∈ kept then some (kept.idxOf q) else none) := by
  -- after some entries those of the numbers up to there are written
  have hloop := foldlM_range (m := Option) (n := kept.length)
    (f := fun numbers number => do
      let old ← (kept.map Fin.val)[number]?
      setAt? numbers old (some number))
    (s := fun k => .ofFn fun q => if q ∈ kept.take k then some (kept.idxOf q) else none)
    (fun k hk => by
      have hread : (kept.map Fin.val)[k]? = some kept[k].val := by
        rw [List.getElem?_map, List.getElem?_eq_getElem hk, Option.map_some]
      simp only [hread, Option.bind_eq_bind, Option.bind_some, setAt?_ofFn, Option.pure_def]
      congr 2
      funext q
      have hmem : q ∈ kept.take (k + 1) ↔ q ∈ kept.take k ∨ q = kept[k] := by
        rw [List.take_succ_eq_append_getElem hk, List.mem_append, List.mem_singleton]
      simp only [hmem]
      by_cases hq : q = kept[k]
      · rw [hq, Function.update_self, if_pos (.inr rfl), hkept.idxOf_getElem k hk]
      · rw [Function.update_of_ne hq]
        simp only [hq, or_false])
  have hstart : (.replicate size none : Array (Option Nat)) =
      .ofFn fun q => if q ∈ kept.take 0 then some (kept.idxOf q) else none := by
    apply Array.ext <;> simp
  rw [List.take_length, ← hstart] at hloop
  rw [renumber?, List.length_map]
  exact hloop

/-! ## Automata without states -/

theorem renumber?_zero {kept : List Nat} (hkept : kept ≠ []) : renumber? 0 kept = none := by
  obtain ⟨old, rest, rfl⟩ := List.exists_cons_of_ne_nil hkept
  rw [renumber?, List.length_cons, List.range_succ_eq_map, List.foldlM_cons]
  rfl

/-- Over no symbols the initial state is reached even if it is not there, and has no entry. -/
theorem trim?_without_states {finals : SortedSet Nat} :
    (⟨∅, .empty 0, finals⟩ : FlatDFA α).trim? = none := by
  have hbounded : Bounded fun _ : Nat => (∅ : SortedSet Nat).toList := ⟨[], fun _ _ h => h⟩
  have hreached : (⟨∅, .empty 0, finals⟩ : FlatDFA α).reachable? =
      some (SortedSet.closure (fun _ => ∅) hbounded {0}) := by
    apply SortedSet.closure?_eq_some (P := fun _ => True)
    · intro state _
      exact ⟨rfl, fun _ _ => trivial⟩
    · exact fun _ _ => trivial
  have hstart : 0 ∈ (SortedSet.closure (fun _ => ∅) hbounded {0}).toList :=
    SortedSet.mem_toList.mpr (SortedSet.mem_closure_singleton.mpr .refl)
  have hnumbers : renumber? (FlatTable.empty 0 : FlatTable Nat).height
      (SortedSet.closure (fun _ => ∅) hbounded {0}).toList = none :=
    renumber?_zero (List.ne_nil_of_mem hstart)
  rw [trim?, hreached, Option.bind_eq_bind, Option.bind_some, hnumbers]
  rfl

end FlatDFA

namespace DFA

variable {α : Type} [TotalOrd α] {d : DFA α}

/-! ## Reachable states -/

/-- The targets of the states that are there. -/
def successorNumbers (d : DFA α) (state : Nat) : SortedSet Nat :=
  if h : state < d.states then (d.successors ⟨state, h⟩).image Fin.val else ∅

theorem mem_successorNumbers {state target : Nat} : target ∈ d.successorNumbers state ↔
    ∃ (h : state < d.states) (q : d.State), q ∈ d.successors ⟨state, h⟩ ∧ q.val = target := by
  unfold successorNumbers
  split
  next h => simp [h]
  next h => simp [h]

theorem successors?_flat (state : d.State) :
    d.flat.successors? state = some (d.successorNumbers state) := by
  have hrow : d.flat.table.row? state = some ((d.table.row state).map Fin.val) :=
    Table.row?_flat state
  rw [FlatDFA.successors?, hrow, Option.map_some, successorNumbers, dif_pos state.2]
  refine congrArg some (SortedSet.ext fun target => ?_)
  simp [mem_successors, Table.row, next]

theorem bounded_successorNumbers (d : DFA α) :
    Bounded fun state => (d.successorNumbers state).toList := by
  refine ⟨⟨List.range d.states, ?_⟩⟩
  intro state target htarget
  obtain ⟨_, q, _, rfl⟩ := mem_successorNumbers.mp htarget
  exact List.mem_range.mpr q.2

theorem linked_successorNumbers (state : d.State) {target : Nat} :
    Linked (fun p q => q ∈ d.successorNumbers p) state.val target ↔
      ∃ q : d.State, Linked (fun p q => q ∈ d.successors p) state q ∧ q.val = target := by
  constructor
  · intro hlinked
    induction hlinked with
    | refl => exact ⟨state, .refl, rfl⟩
    | tail _ hnext ih =>
        obtain ⟨p, hp, rfl⟩ := ih
        obtain ⟨_, q, hq, rfl⟩ := mem_successorNumbers.mp hnext
        exact ⟨q, hp.tail hq, rfl⟩
  · rintro ⟨q, hlinked, rfl⟩
    induction hlinked with
    | refl => exact .refl
    | tail _ hnext ih => exact ih.tail (mem_successorNumbers.mpr ⟨_, _, hnext, rfl⟩)

theorem reachable?_flat : d.flat.reachable? = some (d.reachable.image Fin.val) := by
  have hclosure : d.flat.reachable? =
      some (SortedSet.closure d.successorNumbers d.bounded_successorNumbers {0}) := by
    apply SortedSet.closure?_eq_some (P := (· < d.states))
    · intro state hstate
      refine ⟨successors?_flat ⟨state, hstate⟩, ?_⟩
      intro target htarget
      obtain ⟨_, q, _, rfl⟩ := mem_successorNumbers.mp htarget
      exact q.2
    · intro state hstate
      rw [SortedSet.mem_singleton.mp hstate]
      exact d.states_pos
  rw [hclosure]
  refine congrArg some (SortedSet.ext fun target => ?_)
  rw [SortedSet.mem_closure_singleton, SortedSet.mem_image]
  simp only [reachable, SortedSet.mem_closure_singleton]
  exact linked_successorNumbers d.start

theorem toList_image_reachable :
    (d.reachable.image Fin.val).toList = d.reachable.toList.map Fin.val := by
  apply SortedSet.eq_of_pairwise (SortedSet.sorted _)
  · rw [List.pairwise_map]
    refine pairwise_reachable.imp ?_
    intro p q hlt
    exact Nat.compare_eq_lt.mpr hlt
  · intro state
    simp [SortedSet.mem_toList]

/-! ## Trimming -/

/-- The new numbers of the reachable states. -/
def trimNumbers (d : DFA α) : Array (Option Nat) :=
  .ofFn fun q : d.State =>
    if q ∈ d.reachable.toList then some (d.reachable.toList.idxOf q) else none

theorem trimNumbers_untrim (i : d.trim.State) :
    d.trimNumbers[(d.untrim i).val]? = some (some i.val) := by
  simp [trimNumbers, SortedSet.mem_toList.mpr (untrim_mem i), idxOf_untrim]

theorem trimNumbers_eq_some_iff {q : d.State} {number : Nat} :
    d.trimNumbers[q.val]? = some (some number) ↔
      ∃ h : number < d.trim.states, d.untrim ⟨number, h⟩ = q := by
  constructor
  · intro hread
    have hreached : q ∈ d.reachable := by
      by_contra hnot
      simp [trimNumbers, SortedSet.mem_toList, hnot] at hread
    obtain ⟨i, hi⟩ := exists_untrim_eq hreached
    subst hi
    rw [trimNumbers_untrim, Option.some.injEq, Option.some.injEq] at hread
    subst hread
    exact ⟨i.2, rfl⟩
  · intro ⟨h, hstate⟩
    subst hstate
    exact trimNumbers_untrim ⟨number, h⟩

theorem keptRows?_flat : d.flat.keptRows? (d.reachable.toList.map Fin.val) d.trimNumbers =
    some (.ofFn d.trim.states d.alphabet.size fun row letter =>
      (d.trim.flat.table.get? row letter).getD 0) := by
  have hcount : (d.reachable.toList.map Fin.val).length = d.trim.states := by
    rw [List.length_map, states_trim]
  rw [FlatDFA.keptRows?, hcount]
  apply FlatTable.pushRows?_empty
  intro row hrow letter hletter
  let i : d.trim.State := ⟨row, hrow⟩
  let a : d.Letter := ⟨letter, hletter⟩
  have hold : (d.reachable.toList.map Fin.val)[row]? = some (d.untrim i).val := by
    rw [List.getElem?_map, getElem?_reachable i, Option.map_some]
  have hnumber : d.trimNumbers[(d.next (d.untrim i) a).val]? =
      some (some (d.trim.next i a).val) := by
    rw [← untrim_next, trimNumbers_untrim]
  have hvalue : d.trim.flat.table.get? row letter = some (d.trim.next i a).val :=
    table_get?_flat i a
  rw [hvalue]
  apply access_eq_some hold
  apply access_eq_some (table_get?_flat (d.untrim i) a)
  exact access_eq_some hnumber rfl

theorem trim?_flat : d.flat.trim? = some d.trim.flat := by
  have hnumbers : FlatDFA.renumber? d.states (d.reachable.toList.map Fin.val) =
      some d.trimNumbers :=
    FlatDFA.renumber?_eq_some (pairwise_reachable.imp fun hlt => Fin.ne_of_lt hlt)
  have hread : ∀ final ∈ d.flat.finals.toList,
      d.trimNumbers[final]? = some d.trimNumbers[final]?.join := by
    intro final hfinal
    have hlt : final < d.states := d.wellFormed_flat.finals_lt final hfinal
    simp [trimNumbers, hlt]
  apply access_eq_some reachable?_flat
  rw [toList_image_reachable]
  apply access_eq_some hnumbers
  apply access_eq_some keptRows?_flat
  apply access_eq_some (filterMapM_eq_some hread)
  refine congrArg some (flat_eq (d := d.trim) ?_ ?_).symm
  · intro i letter
    rw [table_get?_flat, Option.getD_some]
  · intro number
    rw [SortedSet.mem_ofList, List.mem_filterMap]
    constructor
    · intro ⟨final, hfinal, hnumber⟩
      obtain ⟨hlt, hmark⟩ := mem_marked.mp hfinal
      rw [Option.join_eq_some_iff] at hnumber
      obtain ⟨h, hstate⟩ := (trimNumbers_eq_some_iff (q := ⟨final, hlt⟩)).mp hnumber
      refine ⟨h, ?_⟩
      rw [← isFinal_untrim, hstate]
      exact hmark
    · intro ⟨h, hmark⟩
      rw [← isFinal_untrim] at hmark
      refine ⟨_, mem_marked.mpr ⟨(d.untrim ⟨number, h⟩).2, hmark⟩, ?_⟩
      rw [Option.join_eq_some_iff]
      exact trimNumbers_untrim ⟨number, h⟩

end DFA

end LanguageTheory
