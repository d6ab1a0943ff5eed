import LanguageTheory.Grammar.ChomskyForm

/-!
# Conversion production by production

The normal form is made in one pass over the productions. A name is taken when it is needed: for a
terminal of a long production when it is met for the first time, then for each link of the chain.
The pass ends as soon as a name is needed and none is left.
-/

namespace LanguageTheory.Grammar

/-- What has been made of the productions so far. -/
structure Conversion where
  names : FreshNames
  vars : SortedSet Char
  /-- The terminals that have been met, with the variables that stand for them. -/
  substitutes : List (Char × Char)
  productions : SortedSet Production

/-- A part of the pass. -/
abbrev Convert (β : Type) := StateT Conversion (Except GrammarFault) β

/-- Takes the least free name for a new variable. -/
def newVariable : Convert Char := do
  let made ← get
  let (name, names) ← made.names.allocate
  set { made with names, vars := insert name made.vars }
  return name

/-- Adds a production. -/
def emit (p : Production) : Convert Unit :=
  modify fun made => { made with productions := insert p made.productions }

/-- The variable for a symbol of a long production. A terminal that has none yet gets a new one,
with a production. -/
def substitute (g : Grammar) (c : Char) : Convert Char := do
  if c ∈ g.vars then
    return c
  else
    match (← get).substitutes.lookup c with
    | some name => return name
    | none =>
        let name ← newVariable
        modify fun made => { made with substitutes := made.substitutes ++ [(c, name)] }
        emit ⟨name, [c]⟩
        return name

/-- Adds the chain of a production: every symbol but the last two gets a link to what follows it. -/
def emitChain (head : Char) (symbols : List Char) : Convert Unit := do
  let last ← (symbols.take (symbols.length - 2)).foldlM
    (fun head symbol => do
      let next ← newVariable
      emit ⟨head, [symbol, next]⟩
      return next)
    head
  emit ⟨last, symbols.drop (symbols.length - 2)⟩

/-- Adds what becomes of a production. -/
def convertProduction (g : Grammar) (p : Production) : Convert Unit := do
  if p.rhs.length < 2 then
    emit p
  else
    let symbols ← p.rhs.mapM g.substitute
    emitChain p.lhs symbols

/-- The variables and productions of the normal form, made in one pass. -/
def convert (g : Grammar) : Except GrammarFault (SortedSet Char × SortedSet Production) := do
  let reduced := g.reduced
  let nothing : Conversion :=
    { names := reduced.freshNames, vars := reduced.vars, substitutes := [], productions := ∅ }
  let ((), made) ← (reduced.productions.toList.forM reduced.convertProduction).run nothing
  return (made.vars, made.productions)

end LanguageTheory.Grammar
