import LanguageTheory.DFA.Minimize
import LanguageTheory.Proofs.DFA.Collapse

/-!
# Words of minimal automata

Dropping unreachable states and merging classes keep the words, and leave an automaton that is
accessible and reduced. Both steps number the states that they keep in increasing order.
-/

namespace LanguageTheory.DFA

variable {α : Type} [TotalOrd α] {d : DFA α}

/-! ## Increasing numberings -/

section Increasing

variable {states : List d.State} {hkept : 0 < (Numbering.ofList states).size}
  {representative : d.State → d.State} (hstates : states.Pairwise (· < ·))
include hstates

/-- States listed in increasing order keep their order. -/
theorem keptState_lt_keptState
    {i j : (d.collapse (.ofList states) hkept representative).State} (hij : i < j) :
    keptState i < keptState j := by
  have hnodup : states.Nodup := hstates.imp fun hlt => Fin.ne_of_lt hlt
  have hlist := Numbering.toList_ofList_of_nodup hnodup
  exact Numbering.pairwise_get (hlist.symm ▸ hstates) hij

/-- The initial state is the least of all, so it stays initial. -/
theorem keptState_start (hstart : d.start ∈ states) :
    keptState (d.collapse (.ofList states) hkept representative).start = d.start := by
  obtain ⟨i, hi⟩ : ∃ i : (d.collapse (.ofList states) hkept representative).State,
      keptState i = d.start := exists_keptState_eq (Numbering.mem_ofList.mpr hstart)
  rcases Nat.eq_zero_or_pos i.val with hzero | hpos
  · rw [← hi]
    exact congrArg keptState (Fin.ext hzero.symm)
  · have hlt : keptState (d.collapse (.ofList states) hkept representative).start < keptState i :=
      keptState_lt_keptState hstates hpos
    rw [hi] at hlt
    exact absurd hlt (Nat.not_lt_zero _)

end Increasing

/-! ## Reachable states -/

theorem pairwise_reachable : d.reachable.toList.Pairwise (· < ·) := by
  refine d.reachable.sorted.imp ?_
  intro p q hbelow
  exact Nat.compare_eq_lt.mp hbelow

theorem represents_trim : d.Represents (.ofList d.reachable.toList) id where
  mem_kept p hp letter := by
    obtain ⟨letters, rfl⟩ := mem_reachable.mp (Numbering.mem_ofList.mp hp)
    refine Numbering.mem_ofList.mpr (mem_reachable.mpr ⟨letters ++ [letter], ?_⟩)
    rw [run_append, run_cons, run_nil, id]
  eq_self _ _ := rfl
  idempotent _ := rfl
  next_eq _ _ := rfl
  isFinal_eq _ := rfl

theorem accessible_trim (d : DFA α) : d.trim.Accessible := by
  apply represents_trim.accessible_collapse
  · exact keptState_start pairwise_reachable d.start_mem_reachable
  · intro p hp
    exact mem_reachable.mp (Numbering.mem_ofList.mp hp)

theorem language_trim (d : DFA α) : d.trim.language = d.language :=
  represents_trim.language_collapse (keptState_start pairwise_reachable d.start_mem_reachable)

/-- The former number of a state that is kept as reachable. -/
def untrim (d : DFA α) (i : d.trim.State) : d.State := keptState i

theorem untrim_next (i : d.trim.State) (letter : d.Letter) :
    d.untrim (d.trim.next i letter) = d.next (d.untrim i) letter :=
  represents_trim.keptState_next i letter

theorem languageFrom_untrim (i : d.trim.State) :
    d.languageFrom (d.untrim i) = d.trim.languageFrom i :=
  (represents_trim.languageFrom_collapse i).symm

theorem strictMono_untrim (d : DFA α) : StrictMono d.untrim := by
  intro i j hij
  exact keptState_lt_keptState pairwise_reachable hij

theorem isFinal_untrim (i : d.trim.State) : d.isFinal (d.untrim i) = d.trim.isFinal i :=
  (isFinal_collapse i).symm

theorem toList_kept_trim : (Numbering.ofList d.reachable.toList).toList = d.reachable.toList :=
  Numbering.toList_ofList_of_nodup (pairwise_reachable.imp fun hlt => Fin.ne_of_lt hlt)

/-- Reachable states are numbered by their places. -/
theorem getElem?_reachable (i : d.trim.State) :
    d.reachable.toList[i.val]? = some (d.untrim i) := by
  have hget := Numbering.getElem?_toList (n := .ofList d.reachable.toList) i
  rw [toList_kept_trim] at hget
  exact hget

theorem idxOf_untrim (i : d.trim.State) : d.reachable.toList.idxOf (d.untrim i) = i := by
  have hplace := Numbering.idxOf_toList (n := .ofList d.reachable.toList) i
  rw [toList_kept_trim] at hplace
  exact hplace

theorem states_trim : d.trim.states = d.reachable.toList.length :=
  Array.length_toList.symm.trans (congrArg List.length toList_kept_trim)

theorem exists_untrim_eq {p : d.State} (hp : p ∈ d.reachable) : ∃ i, d.untrim i = p :=
  exists_keptState_eq (Numbering.mem_ofList.mpr hp)

theorem untrim_mem (i : d.trim.State) : d.untrim i ∈ d.reachable :=
  Numbering.mem_ofList.mp (keptState_mem i)

/-! ## Classes -/

theorem pairwise_leaderList {P : Partition d.states} : P.leaderList.Pairwise (· < ·) :=
  (List.pairwise_lt_finRange d.states).filter _

theorem represents_merge : d.Represents (.ofList d.classes.leaderList) d.classes.leader where
  mem_kept _ _ _ := Numbering.mem_ofList.mpr (Partition.mem_leaderList.mpr Partition.leader_leader)
  eq_self _ hp := Partition.mem_leaderList.mp (Numbering.mem_ofList.mp hp)
  idempotent _ := Partition.leader_leader
  next_eq _ letter := leader_settle_next letter Partition.leader_leader
  isFinal_eq _ := leader_classes_eq_iff.mp Partition.leader_leader []

/-- The members of a class are the states of one language. -/
theorem leader_classes_eq_iff_languageFrom_eq {p q : d.State} :
    d.classes.leader p = d.classes.leader q ↔ d.languageFrom p = d.languageFrom q := by
  rw [leader_classes_eq_iff]
  constructor
  · intro h
    ext w
    apply exists_congr
    intro letters
    rw [h]
  · intro h letters
    rw [Bool.eq_iff_iff, ← decode_mem_languageFrom_iff, ← decode_mem_languageFrom_iff, h]

/-- Members of different classes have different languages. -/
theorem reduced_merge (d : DFA α) : (d.merge d.classes).Reduced := by
  intro i j hij
  have hi := represents_merge.languageFrom_collapse i
  have hj := represents_merge.languageFrom_collapse j
  have hsame : d.languageFrom (keptState i) = d.languageFrom (keptState j) :=
    (hi.symm.trans hij).trans hj
  have hleader := leader_classes_eq_iff_languageFrom_eq.mpr hsame
  apply keptState_inj
  have hi' := represents_merge.eq_self _ (keptState_mem i)
  have hj' := represents_merge.eq_self _ (keptState_mem j)
  exact (hi'.symm.trans hleader).trans hj'

/-- The least member of the class that a merged state is made from. -/
def unmerge (d : DFA α) (i : (d.merge d.classes).State) : d.State := keptState i

theorem unmerge_next (i : (d.merge d.classes).State) (letter : d.Letter) :
    d.unmerge ((d.merge d.classes).next i letter) =
      d.classes.leader (d.next (d.unmerge i) letter) :=
  represents_merge.keptState_next i letter

theorem languageFrom_unmerge (i : (d.merge d.classes).State) :
    d.languageFrom (d.unmerge i) = (d.merge d.classes).languageFrom i :=
  (represents_merge.languageFrom_collapse i).symm

theorem strictMono_unmerge (d : DFA α) : StrictMono d.unmerge := by
  intro i j hij
  exact keptState_lt_keptState pairwise_leaderList hij

/-- A merged state is made from the least state with its words. -/
theorem unmerge_le {p : d.State} {i : (d.merge d.classes).State}
    (h : d.languageFrom (d.unmerge i) = d.languageFrom p) : d.unmerge i ≤ p :=
  calc d.unmerge i = d.classes.leader (d.unmerge i) :=
        (represents_merge.eq_self _ (keptState_mem i)).symm
    _ = d.classes.leader p := leader_classes_eq_iff_languageFrom_eq.mpr h
    _ ≤ p := Partition.leader_le

theorem isFinal_unmerge (i : (d.merge d.classes).State) :
    d.isFinal (d.unmerge i) = (d.merge d.classes).isFinal i :=
  (isFinal_collapse i).symm

theorem toList_kept_merge :
    (Numbering.ofList d.classes.leaderList).toList = d.classes.leaderList :=
  Numbering.toList_ofList_of_nodup (pairwise_leaderList.imp fun hlt => Fin.ne_of_lt hlt)

/-- Classes are numbered by the places of their leaders. -/
theorem idxOf_unmerge (i : (d.merge d.classes).State) :
    d.classes.leaderList.idxOf (d.unmerge i) = i := by
  have hplace := Numbering.idxOf_toList (n := .ofList d.classes.leaderList) i
  rw [toList_kept_merge] at hplace
  exact hplace

theorem states_merge : (d.merge d.classes).states = d.classes.leaderList.length :=
  Array.length_toList.symm.trans (congrArg List.length toList_kept_merge)

theorem exists_unmerge_eq (p : d.State) : ∃ i, d.unmerge i = d.classes.leader p :=
  exists_keptState_eq
    (Numbering.mem_ofList.mpr (Partition.mem_leaderList.mpr Partition.leader_leader))

theorem accessible_merge (hd : d.Accessible) : (d.merge d.classes).Accessible := by
  apply represents_merge.accessible_collapse
  · exact keptState_start pairwise_leaderList (d.start_mem_leaderList d.classes)
  · intro p _
    exact hd p

theorem language_merge (d : DFA α) : (d.merge d.classes).language = d.language :=
  represents_merge.language_collapse
    (keptState_start pairwise_leaderList (d.start_mem_leaderList d.classes))

/-! ## Minimal automata -/

theorem accessible_minimize (d : DFA α) : d.minimize.Accessible :=
  accessible_merge d.accessible_trim

theorem reduced_minimize (d : DFA α) : d.minimize.Reduced := d.trim.reduced_merge

theorem language_minimize (d : DFA α) : d.minimize.language = d.language :=
  d.trim.language_merge.trans d.language_trim

theorem alphabet_minimize (d : DFA α) : d.minimize.alphabet = d.alphabet := rfl

end LanguageTheory.DFA
