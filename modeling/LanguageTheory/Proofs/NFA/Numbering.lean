import LanguageTheory.Proofs.DFA.Numbering
import LanguageTheory.Proofs.NFA.Determinize
import LanguageTheory.Proofs.WordOrder

/-!
# Numbering of the subset construction

The layers of the search are the sets that the words of one length lead to, in the order of the
words. So the sets are numbered by their least words in shortlex order.
-/

namespace LanguageTheory.NFA

variable {α : Type} [TotalOrd α] {n : NFA α}

theorem run_append_singleton (states : SortedSet Nat) (word : List (Alphabet.Letter n.alphabet))
    (letter : Alphabet.Letter n.alphabet) :
    n.run states (word ++ [letter]) = n.advance (n.run states word) letter := by
  rw [run, run, List.foldl_append]
  rfl

/-- A layer holds the sets that the words of its length lead to. -/
theorem layer_subsetSuccessors (k : Nat) : Numbering.layer n.subsetSuccessors n.initial k =
    (wordsOfLength (Alphabet.letters n.alphabet) k).map (n.run n.initial) := by
  induction k with
  | zero => rfl
  | succ k ih =>
      rw [Numbering.layer, ih, wordsOfLength_succ, List.flatMap_map, List.map_flatMap]
      congr 1
      funext word
      rw [subsetSuccessors, List.map_map]
      congr 1
      funext letter
      exact (run_append_singleton ..).symm

theorem toList_subsets (n : NFA α) : n.subsets.toList = Numbering.unseen []
    ((wordsUpTo (Alphabet.letters n.alphabet) (2 ^ n.states)).map (n.run n.initial)) := by
  rw [subsets, Numbering.toList_discover, Numbering.layersBelow, wordsUpTo, List.map_flatMap]
  congr 2
  funext k
  exact layer_subsetSuccessors k

theorem subsetOf_inj {i j : n.toDFA.State} (h : n.subsetOf i = n.subsetOf j) : i = j :=
  Numbering.get_inj h

/-- The state that some letters lead to. -/
def reached (n : NFA α) (letters : List (Alphabet.Letter n.alphabet)) : n.toDFA.State :=
  n.toDFA.run n.toDFA.start letters

section Reached

variable {i j : n.toDFA.State} {v : List (Alphabet.Letter n.alphabet)}

theorem subsetOf_reached : n.subsetOf (n.reached v) = n.run n.initial v := by
  have hrun := subsetOf_run n.toDFA.start v
  rw [subsetOf_start] at hrun
  exact hrun

/-- Every set is one that some word of bounded length leads to. -/
theorem exists_reached_eq (i : n.toDFA.State) :
    ∃ u, u.length ≤ 2 ^ n.states ∧ n.reached u = i := by
  have hmem : n.subsetOf i ∈ n.subsets.toList := Numbering.get_mem n.subsets i
  rw [toList_subsets, Numbering.mem_unseen] at hmem
  obtain ⟨u, hu, hrun⟩ := List.mem_map.mp hmem.1
  refine ⟨u, (mem_wordsUpTo.mp hu).1, subsetOf_inj ?_⟩
  rw [subsetOf_reached, hrun]

/-- A word that leads to a set is preceded by words that lead to the sets numbered before. -/
theorem exists_lesser_reached (hij : i < j) (hv : n.reached v = j) :
    ∃ u, n.reached u = i ∧ List.Shortlex (· < ·) u v := by
  rcases Nat.lt_or_ge (2 ^ n.states) v.length with hlong | hshort
  · -- words as long as this one are not needed to find any set
    obtain ⟨u, hlength, hu⟩ := exists_reached_eq i
    exact ⟨u, hu, .of_length_lt (Nat.lt_of_le_of_lt hlength hlong)⟩
  · have hlisted : v ∈ wordsUpTo (Alphabet.letters n.alphabet) (2 ^ n.states) :=
      mem_wordsUpTo.mpr ⟨hshort, fun letter _ => Alphabet.mem_letters letter⟩
    obtain ⟨before, after, hsplit⟩ := List.append_of_mem hlisted
    have hlist := n.toList_subsets
    have hvalue : n.run n.initial v = n.subsetOf j := by
      rw [← hv, subsetOf_reached]
    rw [hsplit, List.map_append, List.map_cons, hvalue] at hlist
    obtain ⟨u, hu, hrun⟩ := List.mem_map.mp (Numbering.get_mem_of_append hlist hij)
    refine ⟨u, subsetOf_inj (subsetOf_reached.trans hrun), ?_⟩
    have horder : (wordsUpTo (Alphabet.letters n.alphabet) (2 ^ n.states)).Pairwise
        (List.Shortlex (· < ·)) :=
      pairwise_wordsUpTo (List.pairwise_lt_finRange _)
    rw [hsplit, List.pairwise_append] at horder
    exact horder.2.2 u hu v List.mem_cons_self

end Reached

/-- The subset construction numbers its states by their least words. -/
theorem shortlexNumbered_toDFA (n : NFA α) : n.toDFA.ShortlexNumbered where
  accessible i := by
    obtain ⟨u, _, hu⟩ := exists_reached_eq i
    exact ⟨u, hu⟩
  exists_lesser _ _ hij _ hv := exists_lesser_reached hij hv

end LanguageTheory.NFA
