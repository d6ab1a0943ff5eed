import LanguageTheory.Table
import LanguageTheory.Automaton.Fault

/-!
# Deterministic automata

A deterministic automaton has one target for every state and letter; state 0 is initial. It reads a
word letter by letter and recognizes it when the state reached is final.
-/

namespace LanguageTheory

/-- An automaton with a total transition table over the letters of its alphabet. -/
structure DFA (α : Type) [TotalOrd α] where
  alphabet : Alphabet α
  states : Nat
  states_pos : 0 < states
  table : Table states alphabet.size (Fin states)
  accepting : Vector Bool states
deriving DecidableEq

namespace DFA

variable {α : Type} [TotalOrd α]

/-- The states of an automaton. -/
abbrev State (d : DFA α) := Fin d.states

/-- The letters that an automaton reads. -/
abbrev Letter (d : DFA α) := Alphabet.Letter d.alphabet

/-- The automaton with the given targets and final states; state 0 is initial. -/
def ofFn (A : Alphabet α) (states : Nat) (hstates : 0 < states)
    (next : Fin states → Alphabet.Letter A → Fin states) (final : Fin states → Bool) : DFA α where
  alphabet := A
  states := states
  states_pos := hstates
  table := .ofFn next
  accepting := .ofFn final

/-- The initial state. -/
def start (d : DFA α) : d.State := ⟨0, d.states_pos⟩

/-- The state after one letter. -/
def next (d : DFA α) (state : d.State) (letter : d.Letter) : d.State := d.table.get state letter

/-- Whether a state is final. -/
def isFinal (d : DFA α) (state : d.State) : Bool := d.accepting[state]

/-- The final states in order. -/
def finals (d : DFA α) : List d.State := (List.finRange d.states).filter d.isFinal

/-- The state after some letters. -/
def run (d : DFA α) (state : d.State) (letters : List d.Letter) : d.State :=
  letters.foldl d.next state

/-- Whether the word is recognized; a symbol outside the alphabet is reported. -/
def recognizes (d : DFA α) (word : List α) : Except (ForeignSymbol α) Bool :=
  (Alphabet.encode d.alphabet word).map fun letters => d.isFinal (d.run d.start letters)

/-- The target of a transition, if there are such a state and symbol. -/
def transition? (d : DFA α) (state : Nat) (symbol : α) : Option d.State :=
  match d.alphabet.rank? symbol with
  | none => none
  | some letter => if h : state < d.states then some (d.next ⟨state, h⟩ letter) else none

/-! ## The automaton of a function -/

section OfFn

variable {A : Alphabet α} {states : Nat} {hstates : 0 < states}
  {next : Fin states → Alphabet.Letter A → Fin states} {final : Fin states → Bool}

@[simp] theorem next_ofFn (state : Fin states) (letter : Alphabet.Letter A) :
    (ofFn A states hstates next final).next state letter = next state letter :=
  Table.get_ofFn

@[simp] theorem isFinal_ofFn (state : Fin states) :
    (ofFn A states hstates next final).isFinal state = final state :=
  Vector.getElem_ofFn _

end OfFn

/-! ## Runs -/

variable {d : DFA α}

@[simp] theorem run_nil (state : d.State) : d.run state [] = state := rfl

@[simp] theorem run_cons (state : d.State) (letter : d.Letter) (letters : List d.Letter) :
    d.run state (letter :: letters) = d.run (d.next state letter) letters := rfl

theorem run_append (state : d.State) (first second : List d.Letter) :
    d.run state (first ++ second) = d.run (d.run state first) second :=
  List.foldl_append

theorem mem_finals {state : d.State} : state ∈ d.finals ↔ d.isFinal state := by
  simp [finals, List.mem_finRange]

end DFA

end LanguageTheory
