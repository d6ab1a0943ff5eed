import LanguageTheory.NFA.Draft

/-!
# Nondeterministic automata

A nondeterministic automaton is a draft with at least one state; state 0 is initial. Apart from
reading a letter it may follow epsilon edges at any time.
-/

namespace LanguageTheory

/-- A nondeterministic automaton with epsilon edges. -/
structure NFA (α : Type) [TotalOrd α] extends NFA.Draft α where
  states_pos : 0 < states
deriving DecidableEq

/-- The automaton of a draft that has a state. -/
def NFA.Draft.build {α : Type} [TotalOrd α] (b : NFA.Draft α) :
    Except (AutomatonFault α) (NFA α) :=
  if h : 0 < b.states then .ok { b with states_pos := h } else .error .noStates

namespace NFA

variable {α : Type} [TotalOrd α]

/-! ## Construction -/

/-- The automaton with exactly the given edges and final states. -/
def ofTransitions (A : Alphabet α) (states : Nat) (edges : List (Transition α))
    (epsilon : List (Nat × Nat)) (finals : List Nat) : Except (AutomatonFault α) (NFA α) := do
  let labelled ← edges.foldlM Draft.addTransition ((Draft.empty A).addStates states)
  let joined ← epsilon.foldlM (fun b edge => b.addEpsilon edge.1 edge.2) labelled
  let marked ← finals.foldlM Draft.markFinal joined
  marked.build

/-- Recognizes nothing: one state, which is not final. -/
def emptyLanguage (A : Alphabet α) : NFA α :=
  { (Draft.empty A).addState with states_pos := Nat.succ_pos 0 }

/-- Recognizes the empty word only: one state, which is final. -/
def emptyWord (A : Alphabet α) : NFA α :=
  { (Draft.empty A).addState.insertFinal (Fin.last 0) with states_pos := Nat.succ_pos 0 }

/-- Recognizes one symbol: an edge from state 0 to the final state 1. -/
def symbol (A : Alphabet α) (symbol : α) : Except (AutomatonFault α) (NFA α) := do
  let edge ← ((Draft.empty A).addStates 2).addTransition ⟨0, symbol, 1⟩
  let marked ← edge.markFinal 1
  marked.build

/-! ## Questions -/

/-- The targets of a state on a symbol, if there are such a state and symbol. -/
def targets? (n : NFA α) (state : Nat) (symbol : α) : Option (SortedSet Nat) :=
  match n.alphabet.rank? symbol with
  | none => none
  | some letter => if state < n.states then some (n.targets state letter) else none

/-- The targets of a state by epsilon edges, if there is such a state. -/
def epsilonTargets? (n : NFA α) (state : Nat) : Option (SortedSet Nat) :=
  if state < n.states then some (n.epsilonTargets state) else none

/-- Whether a state is final. -/
def isFinal (n : NFA α) (state : Nat) : Bool := state ∈ n.finals

end NFA

end LanguageTheory
