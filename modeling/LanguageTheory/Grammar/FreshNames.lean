import LanguageTheory.Grammar.Basic
import LanguageTheory.Text.Uppercase

/-!
# Fresh names

New variables are named by the upper-case characters that a grammar does not use, the least first.
When all are taken there is no new variable.
-/

namespace LanguageTheory

/-- The names still free, in increasing order. -/
structure FreshNames where
  unused : List Char

/-- Takes the least free name. -/
def FreshNames.allocate (names : FreshNames) : Except GrammarFault (Char × FreshNames) :=
  match names.unused with
  | [] => .error .variablesExhausted
  | name :: rest => .ok (name, ⟨rest⟩)

namespace Grammar

/-- The upper-case characters that are no symbols of the grammar. -/
def unusedNames (g : Grammar) : List Char :=
  Uppercase.all.filter fun c => c ∉ g.terminals ∧ c ∉ g.vars

/-- The free names of a grammar. -/
def freshNames (g : Grammar) : FreshNames := ⟨g.unusedNames⟩

theorem mem_unusedNames {g : Grammar} {c : Char} : c ∈ g.unusedNames ↔
    Uppercase.isUppercase c ∧ c ∉ g.terminals ∧ c ∉ g.vars := by
  simp [unusedNames, Uppercase.mem_all]

end Grammar

end LanguageTheory
