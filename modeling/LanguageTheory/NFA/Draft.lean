import LanguageTheory.Table
import LanguageTheory.Automaton.Fault

/-!
# Drafts of nondeterministic automata

A draft grows state by state and edge by edge, and whole drafts can be spliced in behind its own
states. Every edge and final mark stays within its states; what would not is refused, and the
draft is as before.
-/

namespace LanguageTheory

/-- A nondeterministic automaton in the making; it may still have no state. -/
structure NFA.Draft (α : Type) [TotalOrd α] where
  alphabet : Alphabet α
  states : Nat
  labelled : Table states alphabet.size (SortedSet Nat)
  epsilon : Vector (SortedSet Nat) states
  finals : SortedSet Nat
  labelled_lt : ∀ state letter, ∀ target ∈ labelled.get state letter, target < states
  epsilon_lt : ∀ state : Nat, ∀ target ∈ epsilon[state]?.getD ∅, target < states
  finals_lt : ∀ state ∈ finals, state < states
deriving DecidableEq

namespace NFA.Draft

variable {α : Type} [TotalOrd α]

open AutomatonFault

/-- The targets of a state on a letter; none if there is no such state or letter. -/
def targets (b : Draft α) (state letter : Nat) : SortedSet Nat :=
  (b.labelled.get? state letter).getD ∅

/-- The targets of a state by epsilon edges; none if there is no such state. -/
def epsilonTargets (b : Draft α) (state : Nat) : SortedSet Nat := b.epsilon[state]?.getD ∅

theorem targets_eq (b : Draft α) (state : Fin b.states) (letter : Alphabet.Letter b.alphabet) :
    b.targets state letter = b.labelled.get state letter := by
  simp [targets, Table.get?]

theorem epsilonTargets_eq (b : Draft α) (state : Fin b.states) :
    b.epsilonTargets state = b.epsilon.get state := by
  simp [epsilonTargets, Vector.get]

theorem lt_of_mem_targets {b : Draft α} {state letter target : Nat}
    (h : target ∈ b.targets state letter) : target < b.states := by
  unfold targets Table.get? at h
  split at h
  next hin => exact b.labelled_lt _ _ target h
  next => exact absurd h (SortedSet.not_mem_empty target)

theorem lt_of_mem_epsilonTargets {b : Draft α} {state target : Nat}
    (h : target ∈ b.epsilonTargets state) : target < b.states :=
  b.epsilon_lt state target h

/-- The draft without states. -/
def empty (A : Alphabet α) : Draft α where
  alphabet := A
  states := 0
  labelled := .empty A.size
  epsilon := #v[]
  finals := ∅
  labelled_lt state := state.elim0
  epsilon_lt state target h := by simp at h
  finals_lt state h := absurd h (SortedSet.not_mem_empty state)

/-- Adds a state, numbered by the states before it. -/
def addState (b : Draft α) : Draft α where
  alphabet := b.alphabet
  states := b.states + 1
  labelled := b.labelled.push ∅
  epsilon := b.epsilon.push ∅
  finals := b.finals
  labelled_lt state letter target h := by
    induction state using Fin.lastCases with
    | last => simp [Table.get_push_last] at h
    | cast state =>
        rw [Table.get_push_lt] at h
        exact Nat.lt_succ_of_lt (b.labelled_lt _ _ target h)
  epsilon_lt state target h := by
    rw [Vector.getElem?_push] at h
    split at h
    next => simp at h
    next => exact Nat.lt_succ_of_lt (b.epsilon_lt state target h)
  finals_lt state h := Nat.lt_succ_of_lt (b.finals_lt state h)

/-- Adds several states. -/
def addStates (b : Draft α) : Nat → Draft α
  | 0 => b
  | count + 1 => (b.addStates count).addState

/-- Adds a labelled edge. -/
def insertEdge (b : Draft α) (source : Fin b.states) (letter : Alphabet.Letter b.alphabet)
    (target : Fin b.states) : Draft α where
  alphabet := b.alphabet
  states := b.states
  labelled := b.labelled.set source letter (insert target.val (b.labelled.get source letter))
  epsilon := b.epsilon
  finals := b.finals
  labelled_lt state other q h := by
    by_cases heq : source = state ∧ letter = other
    · obtain ⟨rfl, rfl⟩ := heq
      rw [Table.get_set_eq, SortedSet.mem_insert] at h
      rcases h with rfl | h
      · exact target.2
      · exact b.labelled_lt _ _ q h
    · rw [Table.get_set_ne heq] at h
      exact b.labelled_lt _ _ q h
  epsilon_lt := b.epsilon_lt
  finals_lt := b.finals_lt

/-- Adds an epsilon edge. -/
def insertEpsilon (b : Draft α) (source target : Fin b.states) : Draft α where
  alphabet := b.alphabet
  states := b.states
  labelled := b.labelled
  epsilon := b.epsilon.set source (insert target.val (b.epsilon.get source))
  finals := b.finals
  labelled_lt := b.labelled_lt
  epsilon_lt state q h := by
    rw [Vector.getElem?_set] at h
    split at h
    next heq =>
      rw [Option.getD_some, SortedSet.mem_insert] at h
      rcases h with rfl | h
      · exact target.2
      · exact b.epsilon_lt source q (by simpa [Vector.get] using h)
    next => exact b.epsilon_lt state q h
  finals_lt := b.finals_lt

/-- Adds a final mark. -/
def insertFinal (b : Draft α) (state : Fin b.states) : Draft α where
  alphabet := b.alphabet
  states := b.states
  labelled := b.labelled
  epsilon := b.epsilon
  finals := insert state.val b.finals
  labelled_lt := b.labelled_lt
  epsilon_lt := b.epsilon_lt
  finals_lt q h := by
    rcases SortedSet.mem_insert.mp h with rfl | h
    · exact state.2
    · exact b.finals_lt q h

/-- Adds a transition between states that are there, on a symbol of the alphabet. -/
def addTransition (b : Draft α) (edge : Transition α) : Except (AutomatonFault α) (Draft α) := do
  let source ← requireState b.states edge.source
  let target ← requireState b.states edge.target
  let letter ← requireLetter b.alphabet edge.symbol
  .ok (b.insertEdge source letter target)

/-- Adds an epsilon edge between states that are there. -/
def addEpsilon (b : Draft α) (source target : Nat) : Except (AutomatonFault α) (Draft α) := do
  let source ← requireState b.states source
  let target ← requireState b.states target
  .ok (b.insertEpsilon source target)

/-- Marks a state that is there as final. -/
def markFinal (b : Draft α) (state : Nat) : Except (AutomatonFault α) (Draft α) := do
  let state ← requireState b.states state
  .ok (b.insertFinal state)

/-- The states of a set, counted on from `offset`. -/
def shift (offset : Nat) (s : SortedSet Nat) : SortedSet Nat := s.image (offset + ·)

/-- Copies the states and edges of another draft behind the own states; no copy is final. -/
def append (b other : Draft α) : Draft α where
  alphabet := b.alphabet
  states := b.states + other.states
  labelled := .ofFn fun state letter =>
    if state < b.states then b.targets state letter
    else shift b.states (other.targets (state - b.states) letter)
  epsilon := .ofFn fun state =>
    if state < b.states then b.epsilonTargets state
    else shift b.states (other.epsilonTargets (state - b.states))
  finals := b.finals
  labelled_lt state letter target h := by
    rw [Table.get_ofFn] at h
    split at h
    next => exact Nat.lt_add_right _ (lt_of_mem_targets h)
    next =>
      obtain ⟨q, hq, rfl⟩ := SortedSet.mem_image.mp h
      exact Nat.add_lt_add_left (lt_of_mem_targets hq) _
  epsilon_lt state target h := by
    rw [Vector.getElem?_ofFn] at h
    split at h
    next =>
      rw [Option.getD_some] at h
      split at h
      next => exact Nat.lt_add_right _ (lt_of_mem_epsilonTargets h)
      next =>
        obtain ⟨q, hq, rfl⟩ := SortedSet.mem_image.mp h
        exact Nat.add_lt_add_left (lt_of_mem_epsilonTargets hq) _
    next => simp at h
  finals_lt state h := Nat.lt_add_right _ (b.finals_lt state h)

/-- Copies another draft over the same alphabet behind the own states. -/
def splice (b other : Draft α) : Except (AutomatonFault α) (Draft α) :=
  if other.alphabet = b.alphabet then .ok (b.append other) else .error .alphabetMismatch

end NFA.Draft

end LanguageTheory
