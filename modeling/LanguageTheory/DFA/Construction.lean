import LanguageTheory.DFA.Basic
import LanguageTheory.Machine

/-!
# Automata from lists of transitions

A deterministic automaton is given by its transitions in any order. Either every state and symbol
must have exactly one target, or what is missing leads to a trap state. The first fault is reported.
The transitions are entered in a table of all states and letters, which the machine must have room
for, whatever they are.
-/

namespace LanguageTheory

namespace DFA

variable {α : Type} [TotalOrd α] {A : Alphabet α} {states : Nat}

open AutomatonFault

/-! ## Descriptions -/

/-- At most one target for every state and letter. -/
abbrev PartialTable (A : Alphabet α) (states : Nat) := Table states A.size (Option (Fin states))

/-- Enters a transition, unless the table has another target for its state and symbol. -/
def enter (table : PartialTable A states) (edge : Transition α) :
    Except (AutomatonFault α) (PartialTable A states) := do
  let source ← requireState states edge.source
  let target ← requireState states edge.target
  let letter ← requireLetter A edge.symbol
  match table.get source letter with
  | none => .ok (table.set source letter (some target))
  | some known =>
      if known = target then .ok table
      else .error (.conflictingTransition edge.source edge.symbol)

/-- Enters transitions one after another. -/
def enterAll (table : PartialTable A states) (edges : List (Transition α)) :
    Except (AutomatonFault α) (PartialTable A states) :=
  edges.foldlM enter table

/-- The set of the listed states, if there are so many. -/
def requireStates (states : Nat) (listed : List Nat) :
    Except (AutomatonFault α) (SortedSet (Fin states)) :=
  listed.foldlM
    (fun found number => do
      let state ← requireState states number
      .ok (insert state found))
    ∅

/-- The table and the final states that are described. -/
def describe (m : Machine) (A : Alphabet α) (states : Nat) (edges : List (Transition α))
    (finals : List Nat) :
    Checked (AutomatonFault α) (PartialTable A states × SortedSet (Fin states)) := do
  m.allocate (states * A.size)
  let table ← enterAll (.filled states A.size none) edges
  let marked ← requireStates (α := α) states finals
  return (table, marked)

/-! ## Automata without a trap -/

/-- The least state, and for it the least letter, without a target. -/
def firstMissing (table : PartialTable A states) : Option (Fin states × Alphabet.Letter A) :=
  (List.finRange states).findSome? fun state =>
    ((Alphabet.letters A).find? fun letter => (table.get state letter).isNone).map (state, ·)

/-- The automaton of a table with a target everywhere. -/
def full (hstates : 0 < states) (table : PartialTable A states)
    (finals : SortedSet (Fin states)) : DFA α :=
  ofFn A states hstates (fun state letter => (table.get state letter).getD state) (· ∈ finals)

section Full

variable {hstates : 0 < states} {table : PartialTable A states} {finals : SortedSet (Fin states)}
  {state : Fin states}

theorem next_full {letter : Alphabet.Letter A} :
    (full hstates table finals).next state letter = (table.get state letter).getD state :=
  next_ofFn state letter

theorem isFinal_full : (full hstates table finals).isFinal state ↔ state ∈ finals :=
  (Bool.eq_iff_iff.mp (isFinal_ofFn state)).trans decide_eq_true_iff

end Full

/-- The automaton with exactly the given transitions, one for every state and symbol. -/
def ofTransitions (m : Machine) (A : Alphabet α) (states : Nat) (edges : List (Transition α))
    (finals : List Nat) : Checked (AutomatonFault α) (DFA α) :=
  if hstates : 0 < states then do
    let (table, marked) ← describe m A states edges finals
    match firstMissing table with
    | some (state, letter) => throw (.missingTransition state (A.get letter))
    | none => return full hstates table marked
  else throw .noStates

/-! ## Automata with a trap -/

/-- The automaton of a table, with one more state for the targets that the table leaves out. -/
def completion (table : PartialTable A states) (finals : SortedSet (Fin states)) : DFA α :=
  ofFn A (states + 1) states.succ_pos
    (fun state letter =>
      if h : state < states then
        (table.get ⟨state, h⟩ letter).elim (Fin.last states) Fin.castSucc
      else Fin.last states)
    (fun state => if h : state < states then ⟨state, h⟩ ∈ finals else false)

section Completion

variable {table : PartialTable A states} {finals : SortedSet (Fin states)}
  {state : (completion table finals).State} {letter : (completion table finals).Letter}

theorem val_next_of_lt (hlt : state.val < states) :
    ((completion table finals).next state letter).val =
      ((table.get ⟨state, hlt⟩ letter).map Fin.val).getD states := by
  have hnext := (next_ofFn state letter).trans (dif_pos hlt)
  refine (congrArg Fin.val hnext).trans ?_
  cases table.get ⟨state, hlt⟩ letter <;> rfl

theorem val_next_of_some {target : Fin states} (hlt : state.val < states)
    (hread : table.get ⟨state, hlt⟩ letter = some target) :
    ((completion table finals).next state letter).val = target := by
  rw [val_next_of_lt hlt, hread]
  rfl

theorem val_next_of_none (hlt : state.val < states)
    (hread : table.get ⟨state, hlt⟩ letter = none) :
    ((completion table finals).next state letter).val = states := by
  rw [val_next_of_lt hlt, hread]
  rfl

theorem val_next_of_not_lt (hle : ¬ state.val < states) :
    ((completion table finals).next state letter).val = states :=
  congrArg Fin.val ((next_ofFn state letter).trans (dif_neg hle))

theorem isFinal_completion : (completion table finals).isFinal state ↔
    ∃ h : state.val < states, ⟨state, h⟩ ∈ finals := by
  refine (Bool.eq_iff_iff.mp (isFinal_ofFn state)).trans ?_
  by_cases hlt : state.val < states
  · simp [hlt]
  · simp [hlt]

end Completion

/-- The automaton with the given transitions, where all others lead to one more state, which is
neither final nor ever left. The machine must have a number and room for that state, too. -/
def withTrap (m : Machine) (A : Alphabet α) (states : Nat) (edges : List (Transition α))
    (finals : List Nat) : Checked (AutomatonFault α) (DFA α) :=
  if 0 < states then do
    let (table, marked) ← describe m A states edges finals
    m.represent (states + 1)
    m.allocate ((states + 1) * A.size)
    return completion table marked
  else throw .noStates

end DFA

end LanguageTheory
