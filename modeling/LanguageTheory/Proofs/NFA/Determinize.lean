import LanguageTheory.NFA.Determinize
import LanguageTheory.Proofs.DFA.Language
import LanguageTheory.Proofs.NFA.Path
import LanguageTheory.Proofs.Numbering.Ranks
import Mathlib.Data.Finset.Powerset

/-!
# Words of the subset construction

The sets of states of an automaton are no more than the layers that the search goes through, so that
the sets found are closed under reading a letter, and reading a word leads to the set of the states
that the word leads to (`subsetOf_run`).
-/

namespace LanguageTheory.NFA

variable {α : Type} [TotalOrd α] {n : NFA α} {states : SortedSet Nat} {q k : Nat}

/-! ## Sets of states -/

theorem lt_of_mem_closure (hstates : ∀ p ∈ states, p < n.states) (hq : q ∈ n.closure states) :
    q < n.states := by
  obtain ⟨p, hp, hlinked⟩ := mem_closure.mp hq
  cases hlinked with
  | refl => exact hstates q hp
  | tail _ hlast => exact Draft.lt_of_mem_epsilonTargets hlast

theorem lt_of_mem_initial (hq : q ∈ n.initial) : q < n.states := by
  refine lt_of_mem_closure ?_ hq
  intro p hp
  rw [SortedSet.mem_singleton.mp hp]
  exact n.states_pos

theorem lt_of_mem_advance {letter : Nat} (hq : q ∈ n.advance states letter) : q < n.states := by
  refine lt_of_mem_closure ?_ hq
  intro p hp
  obtain ⟨r, _, htarget⟩ := SortedSet.mem_bind.mp hp
  exact Draft.lt_of_mem_targets htarget

theorem lt_of_mem_layer (hstates : states ∈ Numbering.layer n.subsetSuccessors n.initial k)
    (hq : q ∈ states) : q < n.states := by
  cases k with
  | zero =>
      obtain rfl := List.mem_singleton.mp hstates
      exact lt_of_mem_initial hq
  | succ k =>
      obtain ⟨before, _, hsuccessor⟩ := List.mem_flatMap.mp hstates
      obtain ⟨letter, _, rfl⟩ := List.mem_map.mp hsuccessor
      exact lt_of_mem_advance hq

/-- There are two to the power of `bound` sets of numbers below `bound`. -/
theorem length_le_two_pow {bound : Nat} {sets : List (SortedSet Nat)} (hnodup : sets.Nodup)
    (hsets : ∀ s ∈ sets, ∀ q ∈ s, q < bound) : sets.length ≤ 2 ^ bound := by
  have hinj : Function.Injective fun s : SortedSet Nat => s.toList.toFinset := by
    intro s t hst
    apply SortedSet.ext
    intro a
    rw [← SortedSet.mem_toList, ← SortedSet.mem_toList, ← List.mem_toFinset, ← List.mem_toFinset]
    exact iff_of_eq (congrArg (a ∈ ·) hst)
  have hsubset : sets.toFinset.image (fun s => s.toList.toFinset) ⊆
      (Finset.range bound).powerset := by
    intro numbers hnumbers
    obtain ⟨s, hs, rfl⟩ := Finset.mem_image.mp hnumbers
    rw [Finset.mem_powerset]
    intro q hq
    exact Finset.mem_range.mpr (hsets s (List.mem_toFinset.mp hs) q (List.mem_toFinset.mp hq))
  calc sets.length = sets.toFinset.card := (List.toFinset_card_of_nodup hnodup).symm
    _ = (sets.toFinset.image fun s => s.toList.toFinset).card :=
      (Finset.card_image_of_injective _ hinj).symm
    _ ≤ (Finset.range bound).powerset.card := Finset.card_le_card hsubset
    _ = 2 ^ bound := by rw [Finset.card_powerset, Finset.card_range]

/-- The search may go through as many layers as there are sets of states. -/
theorem length_le_of_mem_layer (sets : List (SortedSet Nat)) (hnodup : sets.Nodup)
    (hsets : ∀ s ∈ sets, ∃ k, s ∈ Numbering.layer n.subsetSuccessors n.initial k) :
    sets.length ≤ Nat.pow 2 n.states := by
  apply length_le_two_pow hnodup
  intro s hs q hq
  obtain ⟨k, hk⟩ := hsets s hs
  exact lt_of_mem_layer hk hq

theorem advance_mem_subsets (hstates : states ∈ n.subsets) (letter : Alphabet.Letter n.alphabet) :
    n.advance states letter ∈ n.subsets := by
  refine Numbering.mem_discover_of_next length_le_of_mem_layer hstates ?_
  exact List.mem_map.mpr ⟨letter, Alphabet.mem_letters letter, rfl⟩

theorem lt_of_mem_subsets (hstates : states ∈ n.subsets) (hq : q ∈ states) : q < n.states := by
  obtain ⟨k, hk⟩ := (Numbering.mem_discover_iff length_le_of_mem_layer).mp hstates
  exact lt_of_mem_layer hk hq

theorem size_subsets_le (n : NFA α) : n.subsets.size ≤ Nat.pow 2 n.states := by
  have hlength : n.subsets.toList.length ≤ Nat.pow 2 n.states := by
    apply length_le_of_mem_layer _ (Numbering.nodup_toList _)
    intro s hs
    exact (Numbering.mem_discover_iff length_le_of_mem_layer).mp hs
  exact (Numbering.size_eq_length _).le.trans hlength

/-! ## Runs -/

/-- The set that a state of the subset construction stands for. -/
def subsetOf (n : NFA α) (i : n.toDFA.State) : SortedSet Nat := n.subsets.get i

theorem subsetOf_start : n.subsetOf n.toDFA.start = n.initial := Numbering.get_zero_discover

theorem subsetOf_next (i : n.toDFA.State) (letter : n.toDFA.Letter) :
    n.subsetOf (n.toDFA.next i letter) = n.advance (n.subsetOf i) letter := by
  have htarget : n.toDFA.next i letter =
      (n.subsets.rank? (n.advance (n.subsetOf i) letter)).getD ⟨0, n.size_subsets_pos⟩ :=
    DFA.next_ofFn i letter
  rw [htarget]
  exact Numbering.get_getD_rank? (advance_mem_subsets (Numbering.get_mem _ i) letter)

/-- Reading letters leads to the set of the states that they lead to. -/
theorem subsetOf_run (i : n.toDFA.State) (letters : List n.toDFA.Letter) :
    n.subsetOf (n.toDFA.run i letters) = n.run (n.subsetOf i) letters := by
  induction letters generalizing i with
  | nil => rfl
  | cons letter letters ih =>
      have hrest := ih (n.toDFA.next i letter)
      rw [subsetOf_next] at hrest
      exact hrest

theorem isFinal_toDFA (i : n.toDFA.State) :
    n.toDFA.isFinal i = (n.subsetOf i).meets n.finals :=
  DFA.isFinal_ofFn i

/-- Determinizing keeps all answers. -/
theorem recognizes_toDFA (n : NFA α) (w : List α) : n.toDFA.recognizes w = n.recognizes w := by
  have htest : (fun letters => n.toDFA.isFinal (n.toDFA.run n.toDFA.start letters)) =
      fun letters => (n.run n.initial letters).meets n.finals := by
    funext letters
    rw [isFinal_toDFA, subsetOf_run, subsetOf_start]
  exact congrArg (fun test => (Alphabet.encode n.alphabet w).map test) htest

theorem language_toDFA (n : NFA α) : n.toDFA.language = n.language := by
  ext w
  rw [← DFA.recognizes_eq_ok_true_iff, recognizes_toDFA, recognizes_eq_ok_true_iff]

/-! ## Answers -/

theorem advance_empty (letter : Nat) : n.advance ∅ letter = ∅ := by
  apply SortedSet.ext
  intro q
  refine iff_of_false ?_ (SortedSet.not_mem_empty q)
  intro hq
  obtain ⟨p, hp, _⟩ := mem_closure.mp hq
  obtain ⟨r, hr, _⟩ := SortedSet.mem_bind.mp hp
  exact SortedSet.not_mem_empty r hr

/-- A run that is out of states stays so; the letters left do not matter. -/
theorem run_empty (letters : List (Alphabet.Letter n.alphabet)) : n.run ∅ letters = ∅ := by
  induction letters with
  | nil => rfl
  | cons letter letters ih =>
      calc n.run ∅ (letter :: letters) = n.run (n.advance ∅ letter) letters := rfl
        _ = ∅ := by rw [advance_empty, ih]

/-- The subset construction answers every word as the automaton that it is made from: whether some
path spells the word, or the first foreign symbol, which is reported also when no state is left
before it. -/
theorem toDFA_answers (n : NFA α) (w : List α) :
    n.toDFA.recognizes w = n.recognizes w ∧
      (∀ b, n.toDFA.recognizes w = .ok b ↔
        (∀ a ∈ w, a ∈ n.alphabet) ∧ (b ↔ ∃ q ∈ n.finals, n.Path 0 w q)) ∧
      (∀ fault, n.toDFA.recognizes w = .error fault ↔
        Alphabet.IsFirstForeign n.alphabet w fault) ∧
      ∀ letters, n.run ∅ letters = ∅ := by
  refine ⟨recognizes_toDFA n w, ?_, ?_, run_empty⟩
  · intro b
    rw [recognizes_toDFA, recognizes, Alphabet.map_encode_eq_ok_iff_forall_mem]
    exact and_congr_right fun _ => iff_congr Iff.rfl recognizes_eq_ok_true_iff
  · intro fault
    exact Alphabet.map_encode_eq_error_iff

end LanguageTheory.NFA
