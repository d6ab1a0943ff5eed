import LanguageTheory.NFA.Basic
import LanguageTheory.SortedSet.Closure

/-!
# Recognition by sets of states

A nondeterministic automaton reads a word by keeping the set of all states it may be in. The set is
closed under epsilon edges before the first letter and after each one.
-/

namespace LanguageTheory.NFA

variable {α : Type} [TotalOrd α]

/-- The states reached from a set by epsilon edges alone, with the set itself. -/
def closure (n : NFA α) (states : SortedSet Nat) : SortedSet Nat :=
  .closure n.epsilonTargets
    ⟨List.range n.states, fun _ _ h => List.mem_range.mpr (Draft.lt_of_mem_epsilonTargets h)⟩ states

/-- The closure of a set of states, if all of them are states of the automaton. -/
def closure? (n : NFA α) (states : SortedSet Nat) : Option (SortedSet Nat) :=
  if ∀ state ∈ states.toList, state < n.states then some (n.closure states) else none

/-- The closure is what can be reached by epsilon edges. -/
theorem mem_closure {n : NFA α} {states : SortedSet Nat} {target : Nat} :
    target ∈ n.closure states ↔
      ∃ state ∈ states, Linked (fun p q => q ∈ n.epsilonTargets p) state target :=
  SortedSet.mem_closure

/-- The set before the first letter. -/
def initial (n : NFA α) : SortedSet Nat := n.closure {0}

/-- The set after one letter, for a set that is already closed. -/
def advance (n : NFA α) (states : SortedSet Nat) (letter : Nat) : SortedSet Nat :=
  n.closure (states.bind fun state => n.targets state letter)

/-- The states reached from one state by reading one symbol, if there are such a state and
symbol. -/
def step? (n : NFA α) (state : Nat) (symbol : α) : Option (SortedSet Nat) :=
  match n.alphabet.rank? symbol with
  | none => none
  | some letter =>
      if state < n.states then some (n.advance (n.closure {state}) letter) else none

/-- The set after some letters. -/
def run (n : NFA α) (states : SortedSet Nat) (letters : List (Alphabet.Letter n.alphabet)) :
    SortedSet Nat :=
  letters.foldl (fun states (letter : Alphabet.Letter n.alphabet) => n.advance states letter) states

/-- Whether the word is recognized; a symbol outside the alphabet is reported. -/
def recognizes (n : NFA α) (word : List α) : Except (ForeignSymbol α) Bool :=
  (Alphabet.encode n.alphabet word).map fun letters => (n.run n.initial letters).meets n.finals

/-- Whether the empty word is recognized. -/
def acceptsEmpty (n : NFA α) : Bool := n.initial.meets n.finals

end LanguageTheory.NFA
