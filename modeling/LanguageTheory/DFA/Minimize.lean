import LanguageTheory.DFA.Reachable
import LanguageTheory.DFA.Distinguish
import LanguageTheory.Machine

/-!
# Minimal automata

Unreachable states are dropped, then every class of indistinguishable states is merged into its
least member, so that the classes are numbered by their least members.
-/

namespace LanguageTheory.DFA

variable {α : Type} [TotalOrd α]

/-- The initial state leads its class. -/
theorem start_mem_leaderList (d : DFA α) (P : Partition d.states) : d.start ∈ P.leaderList :=
  Partition.mem_leaderList.mpr (Fin.le_antisymm Partition.leader_le (Nat.zero_le _))

/-- Merges the members of every class. -/
def merge (d : DFA α) (P : Partition d.states) : DFA α :=
  d.collapse (.ofList P.leaderList)
    (Numbering.size_pos_of_mem (Numbering.mem_ofList.mpr (d.start_mem_leaderList P))) P.leader

/-- The automaton with the fewest states for the same words. -/
def minimize (d : DFA α) : DFA α :=
  let trimmed := d.trim
  trimmed.merge trimmed.classes

/-- Minimization on a machine, which must have room for a new number of every state. -/
def minimizeOn? (m : Machine) (d : DFA α) : Option (DFA α) := do
  m.allocate d.states
  return d.minimize

/-- Whether every state is reachable and any two states are distinguishable. -/
def isMinimal (d : DFA α) : Bool :=
  d.reachable.size == d.states &&
    let classes := d.classes
    (List.finRange d.states).all fun state => classes.leader state = state

end LanguageTheory.DFA
