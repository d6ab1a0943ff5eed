import LanguageTheory.Proofs.Flat.DFA
import LanguageTheory.Proofs.Flat.Recognition
import LanguageTheory.Proofs.Numbering.Queue

/-!
# Subset construction without promises

Sets of states are followed one after another. The sets that a letter leads to are numbered when
they are new, and each new one adds a row of zeros, whose cells are written when its turn comes. In
a well-formed automaton all sets have states in range, so no index is out of range, and the sets are
numbered as in the library (`NFA.toDFA?_flat`).
-/

namespace LanguageTheory

namespace FlatNFA

variable {α : Type} [TotalOrd α]

/-- The sets that have been met, in their order, and the rows of their targets. -/
structure Search where
  known : Numbering (SortedSet Nat)
  table : FlatTable Nat

/-- The number of a set; a new set is added with a row of its own. -/
def Search.enter (s : Search) (states : SortedSet Nat) : Search × Nat :=
  match s.known.rank? states with
  | some number => (s, number)
  | none => (⟨s.known.add states, s.table.push 0⟩, s.table.height)

/-- The numbers of the sets that meet `finals`. -/
def Search.marked (s : Search) (finals : SortedSet Nat) : SortedSet Nat :=
  .ofList ((List.range s.known.size).filter fun number =>
    s.known.values[number]?.any (·.meets finals))

/-- Follows one letter from a set, and writes the number of the set that it leads to. -/
def follow? (n : FlatNFA α) (row : Nat) (states : SortedSet Nat) (s : Search) (letter : Nat) :
    Option Search := do
  let next ← n.advance? states letter
  let entered := s.enter next
  let table ← entered.1.table.set? row letter entered.2
  return { entered.1 with table }

/-- Follows all letters from a set. -/
def expand? (n : FlatNFA α) (row : Nat) (states : SortedSet Nat) (s : Search) : Option Search :=
  (List.range n.alphabet.size).foldlM (n.follow? row states) s

/-- Follows all sets from a number on, if there are no more than `limit`. -/
def explore? (n : FlatNFA α) : Nat → Search → Nat → Option Search
  | 0, _, _ => none
  | limit + 1, s, row =>
      match s.known.values[row]? with
      | none => some s
      | some states => do
          let s ← n.expand? row states s
          n.explore? limit s (row + 1)

/-- The deterministic automaton of the sets of states. -/
def toDFA? (n : FlatNFA α) : Option (FlatDFA α) := do
  let start ← n.closure? {0}
  let s ← n.explore? (Nat.pow 2 n.labelled.height + 1)
    ⟨.ofList [start], (FlatTable.empty n.alphabet.size).push 0⟩ 0
  let marks := s.marked n.finals
  let nullable ← n.acceptsEmpty?
  return ⟨n.alphabet, s.table, if nullable then insert 0 marks else marks⟩

end FlatNFA

namespace NFA

variable {α : Type} [TotalOrd α] {n : NFA α}

/-- The target of a set by its number and a letter, in numbers. -/
def subsetTarget (n : NFA α) (row letter : Nat) : Nat :=
  (n.toDFA.flat.table.get? row letter).getD 0

/-- The search when some sets have been followed, and some letters of the next one. -/
def searched (n : NFA α) (values : List (SortedSet Nat)) (row columns : Nat) : FlatNFA.Search where
  known := .ofList values
  table := .ofFn (Numbering.ofList values).size n.alphabet.size fun r c =>
    if r < row ∨ (r = row ∧ c < columns) then n.subsetTarget r c else 0

theorem subsetTarget_eq (row : n.toDFA.State) (letter : Alphabet.Letter n.alphabet) :
    n.subsetTarget row letter = n.subsets.toList.idxOf (n.advance (n.subsetOf row) letter) := by
  have hread : n.toDFA.flat.table.get? row letter = some (n.toDFA.next row letter).val :=
    DFA.table_get?_flat row letter
  have hplace := Numbering.idxOf_toList (n := n.subsets) (n.toDFA.next row letter)
  have hnext : n.subsets.get (n.toDFA.next row letter) = n.advance (n.subsetOf row) letter :=
    subsetOf_next row letter
  rw [hnext] at hplace
  rw [subsetTarget, hread, Option.getD_some, hplace]

/-! ## Following sets -/

section Search

variable {values : List (SortedSet Nat)} {states : SortedSet Nat} {row columns : Nat}

theorem set?_searched (hrow : row < (Numbering.ofList values).size)
    (hcolumn : columns < n.alphabet.size) :
    (n.searched values row columns).table.set? row columns (n.subsetTarget row columns) =
      some (n.searched values row (columns + 1)).table := by
  simp only [searched, FlatTable.set?_ofFn hrow hcolumn]
  refine congrArg some (FlatTable.ofFn_congr ?_)
  intro r _ c _
  by_cases hcell : r = row ∧ c = columns
  · rw [if_pos hcell, if_pos (.inr ⟨hcell.1, by omega⟩), hcell.1, hcell.2]
  · have hwritten : (r < row ∨ (r = row ∧ c < columns + 1)) ↔
        (r < row ∨ (r = row ∧ c < columns)) := by omega
    simp only [if_neg hcell, hwritten]

/-- A set that has been numbered before keeps its number, and another one takes the next. -/
theorem enter_searched (columns : Nat) (hrow : row < (Numbering.ofList values).size)
    (hinitial : Numbering.unseen [] (values ++ [states]) <+: n.subsets.toList) :
    (n.searched values row columns).enter states =
      (n.searched (values ++ [states]) row columns, n.subsets.toList.idxOf states) := by
  have hplace : n.subsets.toList.idxOf states =
      (Numbering.ofList (values ++ [states])).toList.idxOf states := by
    rw [Numbering.toList_ofList]
    refine (hinitial.idxOf_eq_of_mem (Numbering.mem_unseen.mpr ⟨?_, List.not_mem_nil⟩)).symm
    exact List.mem_append_right _ (List.mem_singleton_self _)
  rw [hplace]
  cases hrank : (Numbering.ofList values).rank? states with
  | some number =>
      have hget := Numbering.rank?_eq_some_iff.mp hrank
      have hknown : states ∈ Numbering.ofList values := hget ▸ Numbering.get_mem _ number
      have hsame : Numbering.ofList (values ++ [states]) = Numbering.ofList values := by
        rw [Numbering.ofList_append_singleton, Numbering.add_eq_self hknown]
      have hnumber : number.val = (Numbering.ofList values).toList.idxOf states := by
        rw [← hget, Numbering.idxOf_toList]
      simp only [FlatNFA.Search.enter, searched, hrank, hsame, hnumber]
  | none =>
      have hnew := Numbering.rank?_eq_none_iff.mp hrank
      have hlist : (Numbering.ofList (values ++ [states])).toList =
          (Numbering.ofList values).toList ++ [states] := by
        rw [Numbering.ofList_append_singleton, Numbering.toList_add, if_neg hnew]
      have hsize : (Numbering.ofList (values ++ [states])).size =
          (Numbering.ofList values).size + 1 := by
        rw [Numbering.size_eq_length, hlist, List.length_append, Numbering.size_eq_length,
          List.length_singleton]
      have hnumber : (Numbering.ofList (values ++ [states])).toList.idxOf states =
          (Numbering.ofList values).size := by
        rw [hlist, List.idxOf_append_of_notMem hnew, List.idxOf_cons_self, Nat.add_zero,
          Numbering.size_eq_length]
      have htable : (n.searched values row columns).table.push 0 =
          (n.searched (values ++ [states]) row columns).table := by
        simp only [searched, FlatTable.push_ofFn, hsize]
        apply FlatTable.ofFn_congr
        intro r hr c _
        by_cases hold : r < (Numbering.ofList values).size
        · rw [if_pos hold]
        · have hunwritten : ¬ (r < row ∨ (r = row ∧ c < columns)) := by omega
          rw [if_neg hold, if_neg hunwritten]
      have henter : (n.searched values row columns).enter states =
          (⟨(Numbering.ofList values).add states, (n.searched values row columns).table.push 0⟩,
            (Numbering.ofList values).size) := by
        simp only [FlatNFA.Search.enter, searched, hrank]
        rfl
      rw [henter, htable, hnumber, ← Numbering.ofList_append_singleton]
      rfl

end Search

/-- What has been met when some sets have been followed. -/
def metBefore (n : NFA α) (row : Nat) : List (SortedSet Nat) :=
  Numbering.met n.subsetSuccessors n.initial n.subsets.toList row

theorem getElem?_subsets (row : n.toDFA.State) :
    n.subsets.toList[row.val]? = some (n.subsetOf row) :=
  Numbering.getElem?_toList (n := n.subsets) row

theorem metBefore_succ (row : n.toDFA.State) :
    n.metBefore (row + 1) = n.metBefore row ++ n.subsetSuccessors (n.subsetOf row) := by
  obtain ⟨hlt, hget⟩ := List.getElem?_eq_some_iff.mp (getElem?_subsets row)
  rw [metBefore, Numbering.met_succ hlt, hget, metBefore]

theorem lt_size_metBefore (row : n.toDFA.State) (l : List (SortedSet Nat)) :
    row.val < (Numbering.ofList (n.metBefore row ++ l)).size := by
  have hlt : row.val < (Numbering.unseen [] (n.metBefore row)).length :=
    Numbering.lt_length_met length_le_of_mem_layer row.2
  rw [Numbering.size_eq_length, Numbering.toList_ofList, Numbering.unseen_append,
    List.length_append]
  exact Nat.lt_add_right _ hlt

theorem prefix_unseen_metBefore (row : n.toDFA.State) (count : Nat) :
    Numbering.unseen [] (n.metBefore row ++ (n.subsetSuccessors (n.subsetOf row)).take count) <+:
      n.subsets.toList := by
  apply Numbering.prefix_unseen length_le_of_mem_layer
  refine List.IsPrefix.trans ?_ (Numbering.prefix_met (row + 1))
  have hnext := metBefore_succ row
  rw [metBefore] at hnext
  rw [← subsets, hnext]
  have htaken := List.take_prefix count (n.subsetSuccessors (n.subsetOf row))
  exact (List.prefix_append_right_inj _).mpr htaken

theorem follow?_searched (row : n.toDFA.State) (letter : Alphabet.Letter n.alphabet) :
    n.flat.follow? row (n.subsetOf row) (n.searched
      (n.metBefore row ++ (n.subsetSuccessors (n.subsetOf row)).take letter) row letter) letter =
        some (n.searched
          (n.metBefore row ++ (n.subsetSuccessors (n.subsetOf row)).take (letter + 1)) row
          (letter + 1)) := by
  have hadvance : n.flat.advance? (n.subsetOf row) letter =
      some (n.advance (n.subsetOf row) letter) :=
    advance?_flat (fun _ => lt_of_mem_subsets (Numbering.get_mem _ row)) letter
  have hvalues : n.metBefore row ++ (n.subsetSuccessors (n.subsetOf row)).take (letter + 1) =
      n.metBefore row ++ (n.subsetSuccessors (n.subsetOf row)).take letter ++
        [n.advance (n.subsetOf row) letter] := by
    have hlt : letter.val < (n.subsetSuccessors (n.subsetOf row)).length := by
      simp [subsetSuccessors, Alphabet.letters]
    rw [List.take_succ_eq_append_getElem hlt, List.append_assoc]
    simp [subsetSuccessors, Alphabet.letters]
  have hinitial := prefix_unseen_metBefore row (letter + 1)
  rw [hvalues] at hinitial ⊢
  have hrow := lt_size_metBefore row ((n.subsetSuccessors (n.subsetOf row)).take letter)
  have hgrown := lt_size_metBefore row ((n.subsetSuccessors (n.subsetOf row)).take letter ++
    [n.advance (n.subsetOf row) letter])
  rw [← List.append_assoc] at hgrown
  apply access_eq_some hadvance
  rw [enter_searched letter hrow hinitial, ← subsetTarget_eq]
  exact access_eq_some (set?_searched hgrown letter.2) rfl

theorem expand?_searched (row : n.toDFA.State) :
    n.flat.expand? row (n.subsetOf row) (n.searched (n.metBefore row) row 0) =
      some (n.searched (n.metBefore (row + 1)) (row + 1) 0) := by
  -- after some letters the sets that they lead to have been met, and their cells are written
  have hloop := foldlM_range (m := Option) (n := n.alphabet.size)
    (f := n.flat.follow? row (n.subsetOf row))
    (s := fun k => n.searched
      (n.metBefore row ++ (n.subsetSuccessors (n.subsetOf row)).take k) row k)
    (fun k hk => follow?_searched row ⟨k, hk⟩)
  have hall : (n.subsetSuccessors (n.subsetOf row)).take n.alphabet.size =
      n.subsetSuccessors (n.subsetOf row) := by
    apply List.take_of_length_le
    simp [subsetSuccessors, Alphabet.letters]
  have htable : n.searched (n.metBefore (row + 1)) row n.alphabet.size =
      n.searched (n.metBefore (row + 1)) (row + 1) 0 := by
    simp only [searched, FlatNFA.Search.mk.injEq, true_and]
    apply FlatTable.ofFn_congr
    intro r _ c hc
    have hwritten : (r < row ∨ (r = row ∧ c < n.alphabet.size)) ↔
        (r < row + 1 ∨ (r = row + 1 ∧ c < 0)) := by omega
    simp only [hwritten]
  rw [hall, List.take_zero, List.append_nil, ← metBefore_succ, htable] at hloop
  exact hloop

theorem toList_metBefore_size :
    (Numbering.ofList (n.metBefore n.subsets.size)).toList = n.subsets.toList := by
  rw [Numbering.toList_ofList, metBefore, Numbering.met, Numbering.size_eq_length, List.take_length]
  exact (Numbering.toList_discover_eq_unseen length_le_of_mem_layer).symm

theorem getElem?_metBefore {row : Nat} (hrow : row ≤ n.subsets.size) :
    (Numbering.ofList (n.metBefore row)).values[row]? = n.subsets.toList[row]? := by
  rw [← Array.getElem?_toList]
  rcases Nat.lt_or_eq_of_le hrow with hlt | heq
  · have hinitial := prefix_unseen_metBefore ⟨row, hlt⟩ 0
    have hlength := lt_size_metBefore ⟨row, hlt⟩ []
    rw [List.take_zero, List.append_nil, ← Numbering.toList_ofList] at hinitial
    rw [List.append_nil, Numbering.size_eq_length] at hlength
    obtain ⟨rest, hrest⟩ := hinitial
    exact (List.getElem?_append_left hlength).symm.trans (congrArg (·[row]?) hrest)
  · subst heq
    exact congrArg (·[n.subsets.size]?) toList_metBefore_size

/-- Following one more set, the search is where it is when that set has been followed. -/
theorem explore?_searched_succ (limit : Nat) (row : n.toDFA.State) :
    n.flat.explore? (limit + 1) (n.searched (n.metBefore row) row 0) row =
      n.flat.explore? limit (n.searched (n.metBefore (row + 1)) (row + 1) 0) (row + 1) := by
  have hread : (n.searched (n.metBefore row) row 0).known.values[row.val]? =
      some (n.subsetOf row) :=
    (getElem?_metBefore row.2.le).trans (getElem?_subsets row)
  rw [FlatNFA.explore?, hread]
  simp only [expand?_searched, Option.bind_eq_bind, Option.bind_some]

theorem explore?_searched {limit row : Nat} (hlimit : n.subsets.size < row + limit)
    (hrow : row ≤ n.subsets.size) :
    n.flat.explore? limit (n.searched (n.metBefore row) row 0) row =
      some (n.searched (n.metBefore n.subsets.size) n.subsets.size 0) := by
  induction limit generalizing row with
  | zero => omega
  | succ limit ih =>
      rcases Nat.lt_or_eq_of_le hrow with hlt | heq
      · have hrest : n.subsets.size < row + 1 + limit := by omega
        exact (explore?_searched_succ limit ⟨row, hlt⟩).trans (ih hrest hlt)
      · have hread : (n.searched (n.metBefore row) row 0).known.values[row]? =
            n.subsets.toList[row]? := getElem?_metBefore hrow
        rw [FlatNFA.explore?, hread, heq, Numbering.size_eq_length,
          List.getElem?_eq_none (Nat.le_refl _)]

/-- The search is not over before every set has had its turn. -/
theorem explore?_searched_eq_none {limit row : Nat} (hlimit : row + limit ≤ n.subsets.size) :
    n.flat.explore? limit (n.searched (n.metBefore row) row 0) row = none := by
  induction limit generalizing row with
  | zero => rfl
  | succ limit ih =>
      have hlt : row < n.subsets.size := by omega
      have hrest : row + 1 + limit ≤ n.subsets.size := by omega
      exact (explore?_searched_succ limit ⟨row, hlt⟩).trans (ih hrest)

theorem searched_start : n.searched (n.metBefore 0) 0 0 =
    ⟨.ofList [n.initial], (FlatTable.empty n.alphabet.size).push 0⟩ := by
  have hsize : (Numbering.ofList [n.initial]).size = 1 := by
    rw [Numbering.size_eq_length, Numbering.toList_ofList]
    rfl
  have hmet : n.metBefore 0 = [n.initial] := rfl
  rw [searched, hmet, hsize, FlatTable.empty_eq_ofFn (f := fun _ _ => 0), FlatTable.push_ofFn]
  congr 1
  apply FlatTable.ofFn_congr
  intro row _ letter _
  simp

theorem explore?_flat : n.flat.explore? (Nat.pow 2 n.states + 1)
    ⟨.ofList [n.initial], (FlatTable.empty n.alphabet.size).push 0⟩ 0 =
      some (n.searched (n.metBefore n.subsets.size) n.subsets.size 0) := by
  have hlimit : n.subsets.size < 0 + (Nat.pow 2 n.states + 1) := by
    have hle := n.size_subsets_le
    omega
  rw [← searched_start]
  exact explore?_searched hlimit (Nat.zero_le _)

/-- The search follows as many sets as it numbers, whatever the limit. -/
theorem isSome_explore?_flat_iff {limit : Nat} : (n.flat.explore? limit
    ⟨.ofList [n.initial], (FlatTable.empty n.alphabet.size).push 0⟩ 0).isSome ↔
      n.subsets.size < limit := by
  rw [← searched_start]
  rcases Nat.lt_or_ge n.subsets.size limit with hlt | hge
  · have hlimit : n.subsets.size < 0 + limit := by omega
    rw [explore?_searched hlimit (Nat.zero_le _)]
    exact iff_of_true rfl hlt
  · have hlimit : 0 + limit ≤ n.subsets.size := by omega
    rw [explore?_searched_eq_none hlimit]
    exact iff_of_false Bool.false_ne_true hge.not_gt

theorem size_metBefore_size :
    (Numbering.ofList (n.metBefore n.subsets.size)).size = n.subsets.size := by
  rw [Numbering.size_eq_length, toList_metBefore_size, ← Numbering.size_eq_length]

theorem isFinal_toDFA_start : n.toDFA.isFinal n.toDFA.start = n.acceptsEmpty := by
  rw [isFinal_toDFA, subsetOf_start]
  rfl

/-- The search when all sets have been followed. -/
def searchedAll (n : NFA α) : FlatNFA.Search :=
  n.searched (n.metBefore n.subsets.size) n.subsets.size 0

theorem table_searchedAll :
    n.searchedAll.table = .ofFn n.subsets.size n.alphabet.size n.subsetTarget := by
  simp only [searchedAll, searched, size_metBefore_size]
  apply FlatTable.ofFn_congr
  intro row hrow letter _
  rw [if_pos (.inl hrow)]

theorem mem_marked_searchedAll {number : Nat} : number ∈ n.searchedAll.marked n.finals ↔
    ∃ h : number < n.toDFA.states, n.toDFA.isFinal ⟨number, h⟩ := by
  have hread : n.searchedAll.known.values[number]? = n.subsets.toList[number]? := by
    rw [← Array.getElem?_toList]
    exact congrArg (·[number]?) toList_metBefore_size
  have hsize : n.searchedAll.known.size = n.toDFA.states := size_metBefore_size
  simp only [FlatNFA.Search.marked, SortedSet.mem_ofList, List.mem_filter, List.mem_range,
    ← exists_prop, hread, hsize]
  refine exists_congr fun h => ?_
  rw [getElem?_subsets ⟨number, h⟩, Option.any_some, isFinal_toDFA]

theorem toDFA?_flat : n.flat.toDFA? = some n.toDFA.flat := by
  apply access_eq_some closure?_flat_zero
  apply access_eq_some explore?_flat
  apply access_eq_some acceptsEmpty?_flat
  have hmarks : ∀ number, number ∈ (if n.acceptsEmpty then
      insert 0 (n.searchedAll.marked n.finals) else n.searchedAll.marked n.finals) ↔
        ∃ h : number < n.toDFA.states, n.toDFA.isFinal ⟨number, h⟩ := by
    intro number
    cases hempty : n.acceptsEmpty with
    | true =>
        rw [if_pos rfl, SortedSet.mem_insert, mem_marked_searchedAll]
        refine or_iff_right_of_imp ?_
        intro hzero
        subst hzero
        exact ⟨n.size_subsets_pos, isFinal_toDFA_start.trans hempty⟩
    | false => rw [if_neg Bool.false_ne_true, mem_marked_searchedAll]
  have htargets : ∀ (row : n.toDFA.State) (letter : n.toDFA.Letter),
      n.subsetTarget row letter = (n.toDFA.next row letter).val := by
    intro row letter
    rw [subsetTarget, DFA.table_get?_flat row letter, Option.getD_some]
  rw [DFA.flat_eq htargets hmarks]
  exact congrArg (fun table => some (FlatDFA.mk n.alphabet table _)) table_searchedAll

end NFA

end LanguageTheory
