import LanguageTheory.Proofs.DFA.LeastWord
import LanguageTheory.Proofs.NFA.Numbering
import LanguageTheory.Proofs.Flat.Determinize

/-!
# The shape of the subset construction

A state of the determinized automaton stands for the states that the words leading to it lead to.
Different states stand for different sets, so there are no more than there are sets of states, and
they are numbered in the order of their least words (`toDFA_shape`).
-/

namespace LanguageTheory.NFA

variable {α : Type} [TotalOrd α] {n : NFA α} {u v w : List α} {i j : n.toDFA.State} {q : Nat}

/-- The states that the paths of a word lead to. -/
def statesAfter (n : NFA α) (w : List α) : Set Nat := {q | n.Path 0 w q}

/-- A state of a deterministic automaton stands for the states that some word for it leads to. -/
def StandsFor (n : NFA α) {d : DFA α} (p : d.State) (states : Set Nat) : Prop :=
  ∃ w, d.Reaches w p ∧ n.statesAfter w = states

/-- An automaton whose states are sets of states. There are no more than there are such sets, every
one is reached, and two words lead to one state when they lead to one set. The numbers follow the
least words, and the empty set, if any state stands for it, is a trap. -/
structure IsSubsetAutomaton (n : NFA α) (d : DFA α) : Prop where
  alphabet_eq : d.alphabet = n.alphabet
  states_le : d.states ≤ 2 ^ n.states
  exists_reaches : ∀ p, ∃ w, d.Reaches w p
  eq_iff : ∀ u v p q, d.Reaches u p → d.Reaches v q → (p = q ↔ n.statesAfter u = n.statesAfter v)
  exists_isLeastWord : ∀ p, ∃ w, d.IsLeastWord p w
  lt_iff : ∀ u v p q, d.IsLeastWord p u → d.IsLeastWord q v → (p < q ↔ List.Shortlex Below u v)
  trap_unique : ∀ p q : d.State, n.StandsFor p ∅ → n.StandsFor q ∅ → p = q
  isFinal_trap : ∀ p : d.State, n.StandsFor p ∅ → d.isFinal p = false
  transition?_trap : ∀ p : d.State, n.StandsFor p ∅ →
    ∀ a ∈ d.alphabet, d.transition? p a = some p

/-! ## Sets and words -/

theorem mem_subsetOf_iff (h : n.toDFA.Reaches w i) : q ∈ n.subsetOf i ↔ q ∈ n.statesAfter w := by
  obtain ⟨letters, rfl, hletters⟩ := h
  have hset : n.subsetOf i = n.run n.initial letters := by
    rw [← hletters]
    exact subsetOf_reached
  rw [hset]
  exact mem_run_initial_iff

theorem eq_iff_statesAfter_eq (hu : n.toDFA.Reaches u i) (hv : n.toDFA.Reaches v j) :
    i = j ↔ n.statesAfter u = n.statesAfter v := by
  constructor
  · rintro rfl
    ext q
    rw [← mem_subsetOf_iff hu, ← mem_subsetOf_iff hv]
  · intro hsame
    apply subsetOf_inj
    apply SortedSet.ext
    intro q
    rw [mem_subsetOf_iff hu, mem_subsetOf_iff hv, hsame]

theorem exists_reaches_toDFA (i : n.toDFA.State) : ∃ w, n.toDFA.Reaches w i := by
  obtain ⟨letters, hletters⟩ := n.shortlexNumbered_toDFA.accessible i
  exact ⟨_, letters, rfl, hletters⟩

/-! ## The empty set -/

theorem subsetOf_eq_empty (h : n.StandsFor i ∅) : n.subsetOf i = ∅ := by
  obtain ⟨w, hw, hempty⟩ := h
  apply SortedSet.ext
  intro q
  rw [mem_subsetOf_iff hw, hempty]
  exact iff_of_false (Set.notMem_empty q) (SortedSet.not_mem_empty q)

theorem isFinal_of_subsetOf_eq_empty (h : n.subsetOf i = ∅) : n.toDFA.isFinal i = false := by
  rw [isFinal_toDFA, h, ← Bool.not_eq_true, SortedSet.meets_iff]
  rintro ⟨q, hq, _⟩
  exact SortedSet.not_mem_empty q hq

/-- Out of states, there is no way back. -/
theorem next_eq_self_of_subsetOf_eq_empty (h : n.subsetOf i = ∅) (letter : n.toDFA.Letter) :
    n.toDFA.next i letter = i := by
  apply subsetOf_inj
  rw [subsetOf_next, h, advance_empty]

/-! ## The determinized automaton -/

theorem isSubsetAutomaton_toDFA (n : NFA α) : n.IsSubsetAutomaton n.toDFA where
  alphabet_eq := rfl
  states_le := n.size_subsets_le
  exists_reaches := exists_reaches_toDFA
  eq_iff _ _ _ _ := eq_iff_statesAfter_eq
  exists_isLeastWord p := DFA.exists_isLeastWord (exists_reaches_toDFA p)
  lt_iff _ _ _ _ := n.shortlexNumbered_toDFA.lt_iff_shortlex
  trap_unique p q hp hq := by
    apply subsetOf_inj
    rw [subsetOf_eq_empty hp, subsetOf_eq_empty hq]
  isFinal_trap p hp := isFinal_of_subsetOf_eq_empty (subsetOf_eq_empty hp)
  transition?_trap p hp a ha := by
    obtain ⟨letter, rfl⟩ := SortedSet.exists_get_eq ha
    refine DFA.transition?_eq_some_iff.mpr ⟨letter, rfl, ?_⟩
    exact next_eq_self_of_subsetOf_eq_empty (subsetOf_eq_empty hp) letter

/-- Following one set after another comes to an end once every state has had its turn, and what has
been written by then is the automaton of the sets of states that words lead to. -/
theorem toDFA_shape (n : NFA α) :
    (∀ limit, (n.flat.explore? limit
      ⟨.ofList [n.initial], (FlatTable.empty n.alphabet.size).push 0⟩ 0).isSome ↔
        n.toDFA.states < limit) ∧
      n.flat.toDFA? = some n.toDFA.flat ∧ n.IsSubsetAutomaton n.toDFA :=
  ⟨fun _ => isSome_explore?_flat_iff, toDFA?_flat, isSubsetAutomaton_toDFA n⟩

end LanguageTheory.NFA
