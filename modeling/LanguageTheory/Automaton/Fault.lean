import LanguageTheory.Alphabet
import LanguageTheory.Text.Quoted

/-!
# Faults of automata

Why the description of an automaton is refused, and how a symbol outside the alphabet is reported.
-/

namespace LanguageTheory

/-- A labelled edge between numbered states. -/
structure Transition (α : Type) where
  source : Nat
  symbol : α
  target : Nat
deriving DecidableEq

/-- What is wrong with the description of an automaton. -/
inductive AutomatonFault (α : Type) where
  | noStates
  | stateOutOfRange (state states : Nat)
  | unknownSymbol (symbol : α)
  | missingTransition (state : Nat) (symbol : α)
  | conflictingTransition (state : Nat) (symbol : α)
  | alphabetMismatch
deriving DecidableEq

namespace AutomatonFault

variable {α : Type}

/-- The wording of a fault. -/
def message [SymbolText α] : AutomatonFault α → String
  | noStates => "an automaton needs at least one state"
  | stateOutOfRange state states =>
      "state " ++ toString state ++ " is out of range for " ++ toString states ++ " states"
  | unknownSymbol symbol =>
      "symbol " ++ SymbolText.quoted symbol ++ " is not in the alphabet"
  | missingTransition state symbol =>
      "state " ++ toString state ++ " has no transition on " ++ SymbolText.quoted symbol
  | conflictingTransition state symbol =>
      "state " ++ toString state ++ " has more than one transition on " ++ SymbolText.quoted symbol
  | alphabetMismatch => "automata over different alphabets cannot be combined"

/-- The state of a given number, if there are so many. -/
def requireState (states state : Nat) : Except (AutomatonFault α) (Fin states) :=
  if h : state < states then .ok ⟨state, h⟩ else .error (.stateOutOfRange state states)

/-- The letter of a symbol, if the alphabet has it. -/
def requireLetter [TotalOrd α] (A : Alphabet α) (symbol : α) :
    Except (AutomatonFault α) (Alphabet.Letter A) :=
  match A.rank? symbol with
  | some letter => .ok letter
  | none => .error (.unknownSymbol symbol)

end AutomatonFault

/-- The wording of a foreign symbol. -/
def ForeignSymbol.message {α : Type} [SymbolText α] (fault : ForeignSymbol α) : String :=
  "symbol " ++ SymbolText.quoted fault.symbol ++ " at position " ++ toString fault.position ++
    " is not in the alphabet"

end LanguageTheory
