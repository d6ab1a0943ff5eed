import LanguageTheory.Grammar.Production
import LanguageTheory.Text.Quoted

/-!
# Grammars

A grammar has disjoint sets of terminals and variables, a start variable, and productions over its
own symbols that its kind admits. The sets are checked once, in `Grammar.ofSets`; from then on every
grammar has these properties. The empty word may be a member beside the derived words.
-/

namespace LanguageTheory

/-- What is wrong with the description of a grammar. -/
inductive GrammarFault where
  | startNotVariable (start : Char)
  | overlappingSymbols (symbol : Char)
  | unknownProductionSymbol (production : Production) (symbol : Char)
  | shapeViolation (kind : Kind) (production : Production)
  | variablesExhausted
deriving DecidableEq

/-- The wording of a fault. -/
def GrammarFault.message : GrammarFault → String
  | startNotVariable start =>
      "start symbol " ++ SymbolText.quoted start ++ " is not a variable"
  | overlappingSymbols symbol =>
      SymbolText.quoted symbol ++ " is both a terminal and a variable"
  | unknownProductionSymbol production symbol =>
      "production " ++ production.display ++ " uses unknown symbol " ++ SymbolText.quoted symbol
  | shapeViolation kind production =>
      "production " ++ production.display ++ " is not allowed in a " ++ kind.name ++ " grammar"
  | variablesExhausted => "no unused variable name is left"

/-- A grammar over characters. -/
structure Grammar where
  terminals : SortedSet Char
  vars : SortedSet Char
  productions : SortedSet Production
  start : Char
  kind : Kind
  /-- Whether the empty word is a member even if no production derives it. -/
  acceptsEmpty : Bool
  start_mem : start ∈ vars
  disjoint : ∀ c ∈ terminals, c ∉ vars
  lhs_mem : ∀ p ∈ productions, p.lhs ∈ vars
  rhs_mem : ∀ p ∈ productions, ∀ c ∈ p.rhs, c ∈ vars ∨ c ∈ terminals
  admitted : ∀ p ∈ productions, kind.Admits vars p.rhs
deriving DecidableEq

namespace Grammar

/-- A grammar is determined by its sets, its start variable, its kind and its flag. -/
@[ext] theorem ext {g h : Grammar} (hterminals : g.terminals = h.terminals)
    (hvars : g.vars = h.vars) (hproductions : g.productions = h.productions)
    (hstart : g.start = h.start) (hkind : g.kind = h.kind)
    (hflag : g.acceptsEmpty = h.acceptsEmpty) : g = h := by
  cases g
  cases h
  simp_all

/-! ## Checked construction -/

section Check

variable {terminals vars : SortedSet Char} {productions : SortedSet Production} {start : Char}
  {kind : Kind} {p : Production}

/-- The first fault of a production: its left-hand side, its leftmost unknown symbol, its shape. -/
def productionFault (terminals vars : SortedSet Char) (kind : Kind) (p : Production) :
    Option GrammarFault :=
  if p.lhs ∉ vars then some (.unknownProductionSymbol p p.lhs)
  else
    match p.rhs.find? fun c => c ∉ vars ∧ c ∉ terminals with
    | some c => some (.unknownProductionSymbol p c)
    | none => if kind.Admits vars p.rhs then none else some (.shapeViolation kind p)

/-- The first fault of a description: its start, a symbol in both sets, a production. -/
def firstFault (terminals vars : SortedSet Char) (productions : SortedSet Production)
    (start : Char) (kind : Kind) : Option GrammarFault :=
  if start ∉ vars then some (.startNotVariable start)
  else
    match terminals.toList.find? (· ∈ vars) with
    | some c => some (.overlappingSymbols c)
    | none => productions.toList.findSome? (productionFault terminals vars kind)

theorem productionFault_eq_none_iff : productionFault terminals vars kind p = none ↔
    p.lhs ∈ vars ∧ (∀ c ∈ p.rhs, c ∈ vars ∨ c ∈ terminals) ∧
      kind.Admits vars p.rhs := by
  unfold productionFault
  split
  next hlhs => simp [hlhs]
  next hlhs =>
    have hknown : (∀ c ∈ p.rhs, c ∈ vars ∨ c ∈ terminals) ↔
        p.rhs.find? (fun c => c ∉ vars ∧ c ∉ terminals) = none := by
      simp only [List.find?_eq_none, decide_eq_true_eq, not_and, Classical.not_not]
      exact forall₂_congr fun c _ => Classical.or_iff_not_imp_left
    split
    next c hfind =>
      refine iff_of_false (Option.some_ne_none _) fun h => ?_
      exact absurd (hfind.symm.trans (hknown.mp h.2.1)) (Option.some_ne_none c)
    next hfind =>
      have hsymbols := hknown.mpr hfind
      by_cases hkind : kind.Admits vars p.rhs <;> simp_all

theorem firstFault_eq_none_iff : firstFault terminals vars productions start kind = none ↔
    start ∈ vars ∧ (∀ c ∈ terminals, c ∉ vars) ∧
      ∀ p ∈ productions, productionFault terminals vars kind p = none := by
  unfold firstFault
  split
  next hstart => simp [hstart]
  next hstart =>
    have hdisjoint : (∀ c ∈ terminals, c ∉ vars) ↔
        terminals.toList.find? (· ∈ vars) = none := by
      simp [List.find?_eq_none, SortedSet.mem_toList]
    split
    next c hfind =>
      refine iff_of_false (Option.some_ne_none _) fun h => ?_
      exact absurd (hfind.symm.trans (hdisjoint.mp h.2.1)) (Option.some_ne_none c)
    next hfind =>
      have hsets := hdisjoint.mpr hfind
      simp only [Classical.not_not] at hstart
      simp only [List.findSome?_eq_none_iff, SortedSet.mem_toList]
      exact ⟨fun h => ⟨hstart, hsets, h⟩, fun h => h.2.2⟩

end Check

/-- The grammar of some sets, or their first fault. -/
def ofSets (terminals vars : SortedSet Char) (productions : SortedSet Production)
    (start : Char) (kind : Kind) : Except GrammarFault Grammar :=
  match hfault : firstFault terminals vars productions start kind with
  | some fault => .error fault
  | none =>
      have hvalid := firstFault_eq_none_iff.mp hfault
      .ok
        { terminals, vars, productions, start, kind
          acceptsEmpty := false
          start_mem := hvalid.1
          disjoint := hvalid.2.1
          lhs_mem := fun p hp => (productionFault_eq_none_iff.mp (hvalid.2.2 p hp)).1
          rhs_mem := fun p hp => (productionFault_eq_none_iff.mp (hvalid.2.2 p hp)).2.1
          admitted := fun p hp => (productionFault_eq_none_iff.mp (hvalid.2.2 p hp)).2.2 }

section OfSets

variable {terminals vars : SortedSet Char} {productions : SortedSet Production} {start : Char}
  {kind : Kind} {g : Grammar}

theorem ofSets_eq_error_iff {fault : GrammarFault} :
    ofSets terminals vars productions start kind = .error fault ↔
      firstFault terminals vars productions start kind = some fault := by
  unfold ofSets
  split
  next hfault => rw [hfault, Except.error.injEq, Option.some.injEq]
  next hnone => simp [hnone]

/-- A grammar is made of its own sets, and of no others. -/
theorem ofSets_eq_ok_iff : ofSets terminals vars productions start kind = .ok g ↔
    g.terminals = terminals ∧ g.vars = vars ∧ g.productions = productions ∧ g.start = start ∧
      g.kind = kind ∧ g.acceptsEmpty = false := by
  constructor
  · intro hmade
    unfold ofSets at hmade
    split at hmade
    next => cases hmade
    next =>
      cases hmade
      exact ⟨rfl, rfl, rfl, rfl, rfl, rfl⟩
  · rintro ⟨rfl, rfl, rfl, rfl, rfl, hflag⟩
    have hvalid : firstFault g.terminals g.vars g.productions g.start g.kind = none := by
      refine firstFault_eq_none_iff.mpr ⟨g.start_mem, g.disjoint, ?_⟩
      intro p hp
      exact productionFault_eq_none_iff.mpr ⟨g.lhs_mem p hp, g.rhs_mem p hp, g.admitted p hp⟩
    unfold ofSets
    split
    next fault hfault => exact absurd (hvalid.symm.trans hfault) (Option.some_ne_none fault).symm
    next => exact congrArg Except.ok (Grammar.ext rfl rfl rfl rfl rfl hflag.symm)

end OfSets

/-- The grammar of some lists, in whatever order and however often they name their elements. -/
def ofLists (terminals vars : List Char) (productions : List Production) (start : Char)
    (kind : Kind) : Except GrammarFault Grammar :=
  ofSets (.ofList terminals) (.ofList vars) (.ofList productions) start kind

/-! ## Questions -/

/-- Whether a symbol is a variable. -/
def isVariable (g : Grammar) (c : Char) : Bool := c ∈ g.vars

/-- The productions of a variable in order. -/
def productionsOf (g : Grammar) (c : Char) : List Production :=
  g.productions.toList.filter fun p => p.lhs = c

theorem mem_productionsOf {g : Grammar} {c : Char} {p : Production} :
    p ∈ g.productionsOf c ↔ p ∈ g.productions ∧ p.lhs = c := by
  simp [productionsOf, SortedSet.mem_toList]

/-- The text of a grammar, a production a line. -/
def display (g : Grammar) : String :=
  String.ofList (g.productions.toList.flatMap fun p => p.toChars ++ ['\n'])

/-- The grammar of the reversed words. -/
def reversed (g : Grammar) : Grammar :=
  { g with
    productions := g.productions.image Production.reversed
    kind := g.kind.reversed
    lhs_mem := fun p hp => by
      obtain ⟨q, hq, rfl⟩ := SortedSet.mem_image.mp hp
      exact g.lhs_mem q hq
    rhs_mem := fun p hp c hc => by
      obtain ⟨q, hq, rfl⟩ := SortedSet.mem_image.mp hp
      exact g.rhs_mem q hq c (List.mem_reverse.mp hc)
    admitted := fun p hp => by
      obtain ⟨q, hq, rfl⟩ := SortedSet.mem_image.mp hp
      exact (g.admitted q hq).reversed }

end Grammar

end LanguageTheory
