import LanguageTheory.Regex.Basic
import LanguageTheory.NFA.Composition
import LanguageTheory.NFA.Determinize
import LanguageTheory.DFA.Minimize

/-!
# Automata of regular expressions

Every form of expression has its composition of automata; the leftmost symbol outside the alphabet
is a fault. Determinizing and minimizing the result gives the smallest automaton for the words.
-/

namespace LanguageTheory.Regex

variable {α : Type} [TotalOrd α]

/-- An automaton that recognizes the words of an expression. -/
def toNFA (A : Alphabet α) : Regex α → Except (AutomatonFault α) (NFA α)
  | emptyLanguage => .ok (NFA.emptyLanguage A)
  | emptyWord => .ok (NFA.emptyWord A)
  | symbol a => NFA.symbol A a
  | concat first second => do NFA.concat (← first.toNFA A) (← second.toNFA A)
  | union left right => do NFA.union (← left.toNFA A) (← right.toNFA A)
  | star item => do NFA.star (← item.toNFA A)

/-- The smallest deterministic automaton that recognizes the words of an expression. -/
def toMinimalDFA (A : Alphabet α) (r : Regex α) : Except (AutomatonFault α) (DFA α) :=
  (r.toNFA A).map fun n => n.toDFA.minimize

end LanguageTheory.Regex
