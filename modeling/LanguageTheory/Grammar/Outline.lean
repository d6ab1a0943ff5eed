import LanguageTheory.Grammar.Basic

/-!
# Outlines of grammars

An outline gives productions as text, several alternatives at once, and leaves out what can be read
off them: without explicit sets the upper-case ASCII letters in use are the variables and all other
symbols in use the terminals.
-/

namespace LanguageTheory.Grammar

/-- A grammar in the making. -/
structure Outline where
  terminals : Option (SortedSet Char) := none
  vars : Option (SortedSet Char) := none
  productions : List Production := []
  start : Char := 'S'
  kind : Kind := .contextFree

namespace Outline

/-- The parts of a text between bars; a text without bars is one part. -/
def alternatives : List Char → List (List Char)
  | [] => [[]]
  | c :: rest =>
      if c = '|' then [] :: alternatives rest
      else
        match alternatives rest with
        | [] => [[c]]
        | first :: others => (c :: first) :: others

/-- Adds a production for each alternative of a text, in which `λ` stands for nothing. -/
def add (o : Outline) (lhs : Char) (text : List Char) : Outline :=
  { o with
    productions := o.productions ++ (alternatives text).map fun alternative =>
      ⟨lhs, alternative.filter (· ≠ 'λ')⟩ }

/-- The symbols in use. -/
def used (o : Outline) : SortedSet Char :=
  .ofList (o.start :: o.productions.flatMap fun p => p.lhs :: p.rhs)

/-- The variables: the given ones, or the capitals in use that are no given terminals. -/
def allVariables (o : Outline) : SortedSet Char :=
  match o.vars with
  | some vars => vars
  | none =>
      let terminals := o.terminals.getD ∅
      o.used.filter fun c => c.isUpper && c ∉ terminals

/-- The terminals: the given ones, or the symbols in use that are no variables. -/
def allTerminals (o : Outline) : SortedSet Char :=
  match o.terminals with
  | some terminals => terminals
  | none =>
      let vars := o.allVariables
      o.used.filter fun c => c ∉ vars

/-- The grammar of an outline, or its first fault. -/
def build (o : Outline) : Except GrammarFault Grammar :=
  ofSets o.allTerminals o.allVariables (.ofList o.productions) o.start o.kind

end Outline

end LanguageTheory.Grammar
