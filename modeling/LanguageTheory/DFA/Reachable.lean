import LanguageTheory.DFA.Basic
import LanguageTheory.SortedSet.Closure
import LanguageTheory.Numbering

/-!
# Reachable states

The states that some word leads to, and the automaton that keeps only chosen states. A choice of
states comes with a representative for every state, so that dropping and merging states are one
construction.
-/

namespace LanguageTheory.DFA

variable {α : Type} [TotalOrd α]

/-- The targets of a state on all letters. -/
def successors (d : DFA α) (state : d.State) : SortedSet d.State :=
  .ofList ((Alphabet.letters d.alphabet).map (d.next state))

theorem mem_successors {d : DFA α} {state target : d.State} :
    target ∈ d.successors state ↔ ∃ letter, d.next state letter = target := by
  simp [successors, Alphabet.mem_letters]

/-- The states reached from the initial one. -/
def reachable (d : DFA α) : SortedSet d.State :=
  .closure d.successors ⟨List.finRange d.states, fun _ state _ => List.mem_finRange state⟩ {d.start}

theorem linked_iff_run {d : DFA α} {state target : d.State} :
    Linked (fun p q => q ∈ d.successors p) state target ↔
      ∃ letters, d.run state letters = target := by
  constructor
  · intro hlinked
    induction hlinked with
    | refl => exact ⟨[], rfl⟩
    | tail _ hnext ih =>
        obtain ⟨letters, hrun⟩ := ih
        obtain ⟨letter, hletter⟩ := mem_successors.mp hnext
        exact ⟨letters ++ [letter], by rw [run_append, hrun, run_cons, run_nil, hletter]⟩
  · rintro ⟨letters, rfl⟩
    induction letters generalizing state with
    | nil => exact .refl
    | cons letter letters ih => exact ih.head (mem_successors.mpr ⟨letter, rfl⟩)

/-- A state is reachable exactly when a word leads to it. -/
theorem mem_reachable {d : DFA α} {state : d.State} :
    state ∈ d.reachable ↔ ∃ letters, d.run d.start letters = state := by
  simp [reachable, SortedSet.mem_closure, linked_iff_run]

theorem start_mem_reachable (d : DFA α) : d.start ∈ d.reachable :=
  mem_reachable.mpr ⟨[], rfl⟩

/-- Keeps some states, with new numbers; a transition leads to the representative of its former
target. -/
def collapse (d : DFA α) (kept : Numbering d.State) (hkept : 0 < kept.size)
    (representative : d.State → d.State) : DFA α :=
  ofFn d.alphabet kept.size hkept
    (fun i letter => (kept.rank? (representative (d.next (kept.get i) letter))).getD ⟨0, hkept⟩)
    (fun i => d.isFinal (kept.get i))

/-- Keeps the reachable states in their order. -/
def trim (d : DFA α) : DFA α :=
  d.collapse (.ofList d.reachable.toList)
    (Numbering.size_pos_of_mem (Numbering.mem_ofList.mpr d.start_mem_reachable)) id

end LanguageTheory.DFA
