import LanguageTheory.NFA.Recognition
import LanguageTheory.DFA.Basic
import LanguageTheory.Numbering.Discovery

/-!
# Subset construction

The sets of states in which a nondeterministic automaton may be are the states of a deterministic
one. Only sets that some word leads to are taken, numbered breadth first with the letters in order;
the empty set, where no run is left, is a set like any other.
-/

namespace LanguageTheory.NFA

variable {α : Type} [TotalOrd α]

/-- The sets after one letter, by letter. -/
def subsetSuccessors (n : NFA α) (states : SortedSet Nat) : List (SortedSet Nat) :=
  (Alphabet.letters n.alphabet).map fun (letter : Alphabet.Letter n.alphabet) =>
    n.advance states letter

/-- The sets of states that some word leads to; there are at most as many as sets of states. -/
def subsets (n : NFA α) : Numbering (SortedSet Nat) :=
  .discover n.subsetSuccessors (Nat.pow 2 n.states) n.initial

theorem size_subsets_pos (n : NFA α) : 0 < n.subsets.size :=
  Numbering.size_discover_pos _ _ _

/-- The deterministic automaton of the sets of states. -/
def toDFA (n : NFA α) : DFA α :=
  let subsets := n.subsets
  .ofFn n.alphabet subsets.size n.size_subsets_pos
    (fun i letter =>
      (subsets.rank? (n.advance (subsets.get i) letter)).getD ⟨0, n.size_subsets_pos⟩)
    (fun i => (subsets.get i).meets n.finals)

end LanguageTheory.NFA
