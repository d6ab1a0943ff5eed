import LanguageTheory.NFA.Draft
import LanguageTheory.Proofs.Flat.Table

/-!
# Drafts without promises

A flat automaton has its edges in arrays and its final states in a set of numbers, and nothing is
promised about any of them. `FlatNFA.WellFormed` says what the queries rely on. The operations on
drafts check what they are given and then read and write by index. On what is well formed no index
is out of range, and what is made is well formed again: the flat operations show those of the
library (`NFA.Draft.shows_addTransition`, `NFA.Draft.shows_splice`), whose drafts are the
well-formed ones (`NFA.Draft.exists_flat_iff`).
-/

namespace LanguageTheory

/-- A nondeterministic automaton, or a draft of one, in arrays. -/
structure FlatNFA (α : Type) [TotalOrd α] where
  alphabet : Alphabet α
  labelled : FlatTable (SortedSet Nat)
  epsilon : Array (SortedSet Nat)
  finals : SortedSet Nat
deriving DecidableEq

namespace FlatNFA

variable {α : Type} [TotalOrd α] {n : FlatNFA α}

open AutomatonFault

/-- A row for every state, a column for every letter, and all states in range. -/
structure WellFormed (n : FlatNFA α) : Prop where
  width : n.labelled.width = n.alphabet.size
  cells : n.labelled.cells.size = n.labelled.height * n.labelled.width
  epsilon : n.epsilon.size = n.labelled.height
  labelled_lt : ∀ targets ∈ n.labelled.cells, ∀ target ∈ targets, target < n.labelled.height
  epsilon_lt : ∀ targets ∈ n.epsilon, ∀ target ∈ targets, target < n.labelled.height
  finals_lt : ∀ state ∈ n.finals, state < n.labelled.height

/-! ## Operations -/

/-- The draft without states. -/
def empty (A : Alphabet α) : FlatNFA α := ⟨A, .empty A.size, #[], ∅⟩

/-- Adds a state. -/
def addState (b : FlatNFA α) : FlatNFA α :=
  { b with labelled := b.labelled.push ∅, epsilon := b.epsilon.push ∅ }

/-- Adds several states. -/
def addStates (b : FlatNFA α) : Nat → FlatNFA α
  | 0 => b
  | count + 1 => (b.addStates count).addState

/-- Reads the targets of a state by epsilon edges. -/
def getEpsilon? (b : FlatNFA α) (state : Nat) : Option (SortedSet Nat) := b.epsilon[state]?

/-- Writes the targets of a state by epsilon edges. -/
def setEpsilon? (b : FlatNFA α) (state : Nat) (targets : SortedSet Nat) : Option (FlatNFA α) :=
  if h : state < b.epsilon.size then some { b with epsilon := b.epsilon.set state targets } else none

/-- A state that is not there is a fault. -/
def checkState (states state : Nat) : Checked (AutomatonFault α) Nat :=
  if state < states then pure state else throw (.stateOutOfRange state states)

/-- Adds a transition between states that are there, on a symbol of the alphabet. -/
def addTransition? (b : FlatNFA α) (edge : Transition α) :
    Checked (AutomatonFault α) (FlatNFA α) := do
  let source ← checkState b.epsilon.size edge.source
  let target ← checkState b.epsilon.size edge.target
  let letter ← requireLetter b.alphabet edge.symbol
  let targets ← b.labelled.get? source letter
  let labelled ← b.labelled.set? source letter (insert target targets)
  return { b with labelled }

/-- Adds an epsilon edge between states that are there. -/
def addEpsilon? (b : FlatNFA α) (source target : Nat) :
    Checked (AutomatonFault α) (FlatNFA α) := do
  let source ← checkState b.epsilon.size source
  let target ← checkState b.epsilon.size target
  let targets ← b.getEpsilon? source
  b.setEpsilon? source (insert target targets)

/-- Marks a state that is there as final. -/
def markFinal? (b : FlatNFA α) (state : Nat) : Checked (AutomatonFault α) (FlatNFA α) := do
  let state ← checkState b.epsilon.size state
  return { b with finals := insert state b.finals }

/-- Adds a copy of a state of another draft, with its targets counted on from `offset`. -/
def copyState? (other : FlatNFA α) (offset : Nat) (b : FlatNFA α) (state : Nat) :
    Option (FlatNFA α) := do
  let added := b.addState
  let labelled ← added.labelled.writeRow? b.labelled.height b.alphabet.size fun letter =>
    (other.labelled.get? state letter).map (NFA.Draft.shift offset)
  let targets ← other.getEpsilon? state
  { added with labelled }.setEpsilon? b.labelled.height (NFA.Draft.shift offset targets)

/-- Copies another draft over the same alphabet behind the own states. -/
def splice? (b other : FlatNFA α) : Checked (AutomatonFault α) (FlatNFA α) :=
  if other.alphabet = b.alphabet then
    liftM ((List.range other.labelled.height).foldlM (other.copyState? b.epsilon.size) b)
  else throw .alphabetMismatch

/-- The entry that was added last is written. -/
theorem setEpsilon?_push {epsilon : Array (SortedSet Nat)} {targets : SortedSet Nat}
    {state : Nat} (hpush : n.epsilon = epsilon.push ∅) (hstate : epsilon.size = state) :
    n.setEpsilon? state targets = some { n with epsilon := epsilon.push targets } := by
  have hlt : state < n.epsilon.size := by
    rw [hpush, Array.size_push, hstate]
    exact Nat.lt_succ_self state
  have hset : n.epsilon.set state targets hlt = epsilon.push targets := by
    apply Array.ext
    · simp [hpush]
    · intro i hi _
      simp only [hpush, Array.getElem_set, Array.getElem_push, ← hstate]
      grind
  rw [setEpsilon?, dif_pos hlt, hset]

end FlatNFA

namespace NFA.Draft

variable {α : Type} [TotalOrd α] {b other : Draft α} {n : FlatNFA α}

open AutomatonFault

/-- A draft in arrays. -/
def flat (b : Draft α) : FlatNFA α :=
  ⟨b.alphabet, b.labelled.flat id, b.epsilon.toArray, b.finals⟩

/-! ## Well-formedness -/

theorem wellFormed_flat (b : Draft α) : b.flat.WellFormed where
  width := rfl
  cells := by simp [flat, Table.flat]
  epsilon := by simp [flat, Table.flat]
  labelled_lt := by
    intro targets htargets target htarget
    simp only [flat, Table.flat, Array.map_id] at htargets
    obtain ⟨i, hi, rfl⟩ := Array.mem_iff_getElem.mp htargets
    rw [Vector.size_toArray] at hi
    apply b.labelled_lt (Table.rowOf ⟨i, hi⟩) (Table.columnOf ⟨i, hi⟩) target
    simpa only [Table.get, Table.rowOf, Table.columnOf, Nat.div_add_mod',
      Vector.getElem_toArray] using htarget
  epsilon_lt := by
    intro targets htargets target htarget
    obtain ⟨i, hi, rfl⟩ := Array.mem_iff_getElem.mp htargets
    apply b.epsilon_lt i target
    simp only [flat, Vector.size_toArray] at hi
    simpa [flat, hi] using htarget
  finals_lt := b.finals_lt

/-- The drafts are the well-formed flat ones. -/
theorem exists_flat_iff : (∃ b : Draft α, b.flat = n) ↔ n.WellFormed := by
  constructor
  · rintro ⟨b, rfl⟩
    exact b.wellFormed_flat
  · intro h
    obtain ⟨alphabet, ⟨width, height, cells⟩, epsilon, finals⟩ := n
    obtain ⟨hwidth, hcells, hepsilon, hlabelled, htargets, hfinals⟩ := h
    obtain rfl : width = alphabet.size := hwidth
    refine ⟨⟨alphabet, height, ⟨⟨cells, hcells⟩⟩, ⟨epsilon, hepsilon⟩, finals, ?_, ?_, hfinals⟩, ?_⟩
    · intro state letter
      exact hlabelled _ (Array.getElem_mem _)
    · intro state target htarget
      cases hread : epsilon[state]? with
      | none => simp [hread] at htarget
      | some targets =>
          apply htargets targets (Array.mem_of_getElem? hread)
          simpa [hread] using htarget
    · simp [flat, Table.flat]

/-! ## Operations -/

@[simp] theorem size_epsilon_flat : b.flat.epsilon.size = b.states := b.epsilon.size_toArray

theorem flat_empty (A : Alphabet α) : (empty A).flat = .empty A := by
  simp [flat, FlatNFA.empty, empty, Table.flat_empty]

theorem flat_addState (b : Draft α) : b.addState.flat = b.flat.addState := by
  have hlabelled := Table.push_flat id b.labelled ∅
  simp [flat, FlatNFA.addState, addState, ← hlabelled]

theorem flat_addStates (b : Draft α) (count : Nat) :
    (b.addStates count).flat = b.flat.addStates count := by
  induction count with
  | zero => rfl
  | succ count ih => rw [addStates, flat_addState, ih, FlatNFA.addStates]

omit [TotalOrd α] in
theorem shows_checkState {states state : Nat} :
    Shows Fin.val (FlatNFA.checkState states state)
      (requireState states state : Except (AutomatonFault α) _) := by
  unfold FlatNFA.checkState requireState
  split <;> rfl

theorem shows_addTransition (edge : Transition α) :
    Shows flat (b.flat.addTransition? edge) (b.addTransition edge) := by
  unfold FlatNFA.addTransition? addTransition
  rw [size_epsilon_flat]
  apply shows_checkState.bind
  intro source
  apply shows_checkState.bind
  intro target
  apply Shows.check.bind
  intro letter
  apply Shows.access (Table.get?_flat id b.labelled source letter)
  apply Shows.access (Table.set?_flat id b.labelled source letter _)
  exact Shows.pure (b.insertEdge source letter target)

theorem getEpsilon?_flat (state : Fin b.states) :
    b.flat.getEpsilon? state = some (b.epsilon.get state) := by
  simp [FlatNFA.getEpsilon?, flat, Vector.get]

theorem setEpsilon?_flat {state : Nat} (hstate : state < b.states) (targets : SortedSet Nat) :
    b.flat.setEpsilon? state targets =
      some { b.flat with epsilon := (b.epsilon.set state targets).toArray } := by
  simp [FlatNFA.setEpsilon?, flat, hstate]

theorem shows_addEpsilon (source target : Nat) :
    Shows flat (b.flat.addEpsilon? source target) (b.addEpsilon source target) := by
  unfold FlatNFA.addEpsilon? addEpsilon
  rw [size_epsilon_flat]
  apply shows_checkState.bind
  intro source
  apply shows_checkState.bind
  intro target
  apply Shows.access (getEpsilon?_flat source)
  rw [setEpsilon?_flat source.2]
  exact Shows.pure (b.insertEpsilon source target)

theorem shows_markFinal (state : Nat) :
    Shows flat (b.flat.markFinal? state) (b.markFinal state) := by
  unfold FlatNFA.markFinal? markFinal
  rw [size_epsilon_flat]
  apply shows_checkState.bind
  intro state
  exact Shows.pure (b.insertFinal state)

/-! ## Copies -/

theorem labelled_flat_get? {state letter : Nat} (hstate : state < b.states)
    (hletter : letter < b.alphabet.size) :
    b.flat.labelled.get? state letter = some (b.targets state letter) := by
  have hread := Table.get?_flat id b.labelled ⟨state, hstate⟩ ⟨letter, hletter⟩
  exact hread.trans (congrArg some (b.targets_eq ⟨state, hstate⟩ ⟨letter, hletter⟩).symm)

theorem getEpsilon?_flat_of_lt {state : Nat} (hstate : state < b.states) :
    b.flat.getEpsilon? state = some (b.epsilonTargets state) :=
  (getEpsilon?_flat ⟨state, hstate⟩).trans
    (congrArg some (b.epsilonTargets_eq ⟨state, hstate⟩).symm)

/-- The targets on a letter when another draft has been copied behind the own states. -/
def splicedTargets (b other : Draft α) (state letter : Nat) : SortedSet Nat :=
  if state < b.states then b.targets state letter
  else shift b.states (other.targets (state - b.states) letter)

/-- The targets by epsilon edges when another draft has been copied behind the own states. -/
def splicedEpsilon (b other : Draft α) (state : Nat) : SortedSet Nat :=
  if state < b.states then b.epsilonTargets state
  else shift b.states (other.epsilonTargets (state - b.states))

/-- A draft behind which some states of another one have been copied; their edges may still lead to
states that are to be copied. -/
def spliced (b other : Draft α) (copied : Nat) : FlatNFA α where
  alphabet := b.alphabet
  labelled := .ofFn (b.states + copied) b.alphabet.size (b.splicedTargets other)
  epsilon := (Array.range (b.states + copied)).map (b.splicedEpsilon other)
  finals := b.finals

theorem splicedTargets_copied {state letter : Nat} :
    b.splicedTargets other (b.states + state) letter =
      shift b.states (other.targets state letter) := by
  rw [splicedTargets, if_neg (Nat.not_lt.mpr (Nat.le_add_right _ _)), Nat.add_sub_cancel_left]

theorem splicedEpsilon_copied {state : Nat} : b.splicedEpsilon other (b.states + state) =
    shift b.states (other.epsilonTargets state) := by
  rw [splicedEpsilon, if_neg (Nat.not_lt.mpr (Nat.le_add_right _ _)), Nat.add_sub_cancel_left]

theorem spliced_zero : b.spliced other 0 = b.flat := by
  have hlabelled : b.labelled.flat id =
      .ofFn b.states b.alphabet.size (b.splicedTargets other) := by
    apply Table.flat_eq_ofFn
    intro state letter
    rw [splicedTargets, if_pos state.2, targets_eq, id]
  have hepsilon : (Array.range b.states).map (b.splicedEpsilon other) = b.epsilon.toArray := by
    apply Array.ext
    · simp
    · intro i _ hi
      simp only [Vector.size_toArray] at hi
      simp [splicedEpsilon, epsilonTargets, hi]
  simp only [spliced, flat, hlabelled, Nat.add_zero, hepsilon]

theorem spliced_states : b.spliced other other.states = (b.append other).flat := by
  have hlabelled : (b.append other).labelled.flat id =
      .ofFn (b.states + other.states) b.alphabet.size (b.splicedTargets other) :=
    Table.flat_ofFn fun _ _ => rfl
  have hepsilon : (b.append other).epsilon.toArray =
      (Array.range (b.states + other.states)).map (b.splicedEpsilon other) := by
    apply Array.ext
    · simp [append]
    · intro i _ _
      simp [append, splicedEpsilon]
  rw [spliced, flat, hlabelled, hepsilon]
  rfl

/-- A copy takes the row after the last one. -/
theorem copyState?_spliced (halphabet : other.alphabet = b.alphabet) {copied : Nat}
    (hcopied : copied < other.states) :
    other.flat.copyState? b.states (b.spliced other copied) copied =
      some (b.spliced other (copied + 1)) := by
  have hread : ∀ letter < b.alphabet.size,
      (other.flat.labelled.get? copied letter).map (shift b.states) =
        some (b.splicedTargets other (b.states + copied) letter) := by
    intro letter hletter
    rw [labelled_flat_get? hcopied (halphabet ▸ hletter), Option.map_some, splicedTargets_copied]
  have hrow : ((b.spliced other copied).labelled.push ∅).writeRow? (b.states + copied)
      b.alphabet.size
      (fun letter => (other.flat.labelled.get? copied letter).map (shift b.states)) =
        some (b.spliced other (copied + 1)).labelled := by
    rw [spliced, FlatTable.push_ofFn, FlatTable.writeRow?_ofFn (Nat.lt_succ_self _) hread]
    refine congrArg some (FlatTable.ofFn_congr ?_)
    intro state hstate letter _
    by_cases hlast : state = b.states + copied
    · rw [if_pos hlast, hlast]
    · rw [if_neg hlast, if_pos (by omega)]
  have hepsilon : (b.spliced other (copied + 1)).epsilon =
      (b.spliced other copied).epsilon.push (shift b.states (other.epsilonTargets copied)) := by
    simp only [spliced, ← Nat.add_assoc, ← splicedEpsilon_copied (b := b)]
    rw [Array.range_succ, Array.map_append, Array.map_singleton, Array.push_eq_append]
  have hnew : (b.spliced other copied).epsilon.size = b.states + copied := by simp [spliced]
  have hwrite : FlatNFA.setEpsilon?
      { (b.spliced other copied).addState with
        labelled := (b.spliced other (copied + 1)).labelled }
      (b.states + copied) (shift b.states (other.epsilonTargets copied)) =
        some (b.spliced other (copied + 1)) := by
    rw [FlatNFA.setEpsilon?_push rfl hnew, ← hepsilon]
    rfl
  apply access_eq_some hrow
  exact access_eq_some (getEpsilon?_flat_of_lt hcopied) hwrite

theorem shows_splice : Shows flat (b.flat.splice? other.flat) (b.splice other) := by
  unfold FlatNFA.splice? splice
  by_cases halphabet : other.alphabet = b.alphabet
  · have hloop := foldlM_range (m := Option) (n := other.states)
      (fun copied hcopied => copyState?_spliced (b := b) halphabet hcopied)
    rw [spliced_zero, spliced_states] at hloop
    have hflat : other.flat.alphabet = b.flat.alphabet := halphabet
    rw [if_pos hflat, if_pos halphabet, size_epsilon_flat]
    have hheight : other.flat.labelled.height = other.states := rfl
    rw [hheight, hloop]
    rfl
  · have hflat : other.flat.alphabet ≠ b.flat.alphabet := halphabet
    rw [if_neg hflat, if_neg halphabet]
    rfl

end NFA.Draft

end LanguageTheory
