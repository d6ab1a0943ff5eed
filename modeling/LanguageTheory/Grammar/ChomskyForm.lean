import LanguageTheory.Grammar.LambdaFree
import LanguageTheory.Grammar.UnitFree
import LanguageTheory.Grammar.Useful
import LanguageTheory.Grammar.FreshNames
import LanguageTheory.Numbering

/-!
# Chomsky normal form

Every production is to have two variables or one terminal on its right. After the removals, a
longer production needs helpers: a variable for each of its terminals, and a link between any two
steps of the chain that it becomes. Helpers are named in the order in which productions need them.
-/

namespace LanguageTheory.Grammar

variable {g : Grammar} {p q : Production} {c : Char}

/-! ## The form -/

/-- Whether a production has one terminal or two variables on its right. -/
def isNormal (g : Grammar) (p : Production) : Bool :=
  match p.rhs with
  | [c] => c ∉ g.vars
  | [b, c] => b ∈ g.vars && c ∈ g.vars
  | _ => false

/-- The first production that is not in the form. -/
def firstViolation (g : Grammar) : Option Production :=
  g.productions.toList.find? fun p => !g.isNormal p

/-- Whether all productions are in the form. -/
def isChomskyForm (g : Grammar) : Bool := g.firstViolation.isNone

/-! ## Helpers -/

/-- A variable to be added. -/
inductive Helper where
  /-- It stands for a terminal. -/
  | terminal (c : Char)
  /-- It stands for what follows the symbol at a position of a production. -/
  | link (p : Production) (position : Nat)
deriving DecidableEq

namespace Helper

/-- How many symbols of a production are read before the helper is needed in its chain. -/
def step : Helper → Nat
  | terminal _ => 0
  | link _ position => position + 1

/-- The symbols that, with the step, make up the helper. -/
def symbols : Helper → List (List Char)
  | terminal c => [[c]]
  | link p _ => p.sides

/-- Helpers are ordered by their steps first. -/
instance : Ord Helper := ⟨compareLex (compareOn step) (compareOn symbols)⟩

instance : Std.TransOrd Helper :=
  inferInstanceAs (Std.TransCmp (compareLex (compareOn step) (compareOn symbols)))

theorem eq_of_step_of_symbols {a b : Helper} (hstep : a.step = b.step)
    (hsymbols : a.symbols = b.symbols) : a = b := by
  cases a <;> cases b <;> simp_all [step, symbols]
  exact Production.sides_inj hsymbols

instance : TotalOrd Helper where
  eq_of_compare {a b} h := by
    simp only [compare, compareLex, Ordering.then_eq_eq] at h
    exact eq_of_step_of_symbols (Std.LawfulEqOrd.eq_of_compare h.1)
      (Std.LawfulEqOrd.eq_of_compare h.2)
  decEq := inferInstance

end Helper

/-- The helpers of one production, terminals first; a short production needs none. -/
def helpersOf (g : Grammar) (p : Production) : List Helper :=
  if p.rhs.length < 2 then []
  else
    (p.rhs.filter (· ∉ g.vars)).map Helper.terminal ++
      (List.range (p.rhs.length - 2)).map (Helper.link p)

/-- All helpers in the order in which they are first needed. -/
def helpers (g : Grammar) : Numbering Helper :=
  .ofList (g.productions.toList.flatMap g.helpersOf)

theorem mem_helpers {helper : Helper} :
    helper ∈ g.helpers ↔ ∃ p ∈ g.productions, helper ∈ g.helpersOf p := by
  simp [helpers, List.mem_flatMap, SortedSet.mem_toList]

theorem terminal_mem_helpers (hp : p ∈ g.productions) (hlong : 2 ≤ p.rhs.length) (hc : c ∈ p.rhs)
    (hvar : c ∉ g.vars) : .terminal c ∈ g.helpers := by
  refine mem_helpers.mpr ⟨p, hp, ?_⟩
  simp [helpersOf, Nat.not_lt.mpr hlong, hc, hvar]

theorem link_mem_helpers {position : Nat} (hp : p ∈ g.productions)
    (hposition : position + 2 < p.rhs.length) : .link p position ∈ g.helpers := by
  refine mem_helpers.mpr ⟨p, hp, ?_⟩
  have hlong : ¬ p.rhs.length < 2 := by omega
  simp [helpersOf, hlong]
  omega

/-- The name at the helper's place in the order. -/
def nameOf (helpers : Numbering Helper) (names : Array Char) (helper : Helper) : Option Char :=
  (helpers.rank? helper).bind fun i => names[i.val]?

/-- Helpers are named when there are names enough. -/
theorem exists_nameOf {helpers : Numbering Helper} {names : Array Char} {helper : Helper}
    (hhelper : helper ∈ helpers) (henough : helpers.size ≤ names.size) :
    ∃ name ∈ names, nameOf helpers names helper = some name := by
  cases hrank : helpers.rank? helper with
  | none => exact absurd hhelper (Numbering.rank?_eq_none_iff.mp hrank)
  | some i =>
      have hi : i.val < names.size := Nat.lt_of_lt_of_le i.2 henough
      exact ⟨names[i.val], Array.getElem_mem hi, by simp [nameOf, hrank, hi]⟩

/-! ## Binary productions -/

/-- The variable that stands for a symbol in a long production. -/
def standIn (g : Grammar) (name : Helper → Char) (c : Char) : Char :=
  if c ∈ g.vars then c else name (.terminal c)

/-- A production of two or more symbols as a chain of productions of two. -/
def chain (link : Nat → Char) (head : Char) (position : Nat) : List Char → List Production
  | first :: second :: third :: rest =>
      ⟨head, [first, link position]⟩ ::
        chain link (link position) (position + 1) (second :: third :: rest)
  | symbols => [⟨head, symbols⟩]

/-- Heads and symbols of a chain are those it is made of, and its links. -/
theorem mem_chain {link : Nat → Char} {head : Char} {position : Nat} {symbols : List Char}
    (hq : q ∈ chain link head position symbols) :
    (q.lhs = head ∨ ∃ i, i + 2 < position + symbols.length ∧ q.lhs = link i) ∧
      ∀ c ∈ q.rhs, c ∈ symbols ∨ ∃ i, i + 2 < position + symbols.length ∧ c = link i := by
  fun_induction chain link head position symbols with
  | case1 head position first second third rest ih =>
      have hlink : position + 2 < position + (first :: second :: third :: rest).length := by
        simp only [List.length_cons]
        omega
      rcases List.mem_cons.mp hq with rfl | hq
      · refine ⟨.inl rfl, fun c hc => ?_⟩
        rcases List.mem_cons.mp hc with rfl | hc
        · exact .inl List.mem_cons_self
        · exact .inr ⟨position, hlink, List.mem_singleton.mp hc⟩
      · have hlength : position + 1 + (second :: third :: rest).length =
            position + (first :: second :: third :: rest).length := by
          simp only [List.length_cons]
          omega
        obtain ⟨hlhs, hrhs⟩ := ih hq
        rw [hlength] at hlhs hrhs
        refine ⟨.inr ?_, fun c hc => (hrhs c hc).imp_left (List.mem_cons_of_mem _)⟩
        rcases hlhs with hhead | hother
        · exact ⟨position, hlink, hhead⟩
        · exact hother
  | case2 =>
      rw [List.mem_singleton.mp hq]
      exact ⟨.inl rfl, fun c hc => .inl hc⟩

/-- What becomes of a production. -/
def binarize (g : Grammar) (name : Helper → Char) (p : Production) : List Production :=
  if p.rhs.length < 2 then [p]
  else chain (fun position => name (.link p position)) p.lhs 0 (p.rhs.map (g.standIn name))

/-- The production of a helper that stands for a terminal. -/
def terminalProduction (name : Helper → Char) : Helper → Option Production
  | .terminal c => some ⟨name (.terminal c), [c]⟩
  | .link .. => none

/-- The productions in normal form. -/
def binaryProductions (g : Grammar) (name : Helper → Char) : SortedSet Production :=
  .ofList (g.productions.toList.flatMap (g.binarize name) ++
    g.helpers.toList.filterMap (terminalProduction name))

theorem mem_binaryProductions {name : Helper → Char} : q ∈ g.binaryProductions name ↔
    (∃ p ∈ g.productions, q ∈ g.binarize name p) ∨
      ∃ c, .terminal c ∈ g.helpers ∧ q = ⟨name (.terminal c), [c]⟩ := by
  simp only [binaryProductions, SortedSet.mem_ofList, List.mem_append, List.mem_flatMap,
    List.mem_filterMap, SortedSet.mem_toList, Numbering.mem_toList]
  refine or_congr_right ⟨?_, ?_⟩
  · rintro ⟨helper, hhelper, hq⟩
    cases helper with
    | terminal c => exact ⟨c, hhelper, (Option.some.inj hq).symm⟩
    | link => cases hq
  · rintro ⟨c, hc, rfl⟩
    exact ⟨.terminal c, hc, rfl⟩

/-- The variables with the named helpers. -/
def binaryVariables (g : Grammar) (name : Helper → Char) : SortedSet Char :=
  g.vars ∪ .ofList (g.helpers.toList.map name)

theorem mem_binaryVariables {name : Helper → Char} : c ∈ g.binaryVariables name ↔
    c ∈ g.vars ∨ ∃ helper ∈ g.helpers, name helper = c := by
  simp [binaryVariables, Numbering.mem_toList]

theorem name_mem_binaryVariables {name : Helper → Char} {helper : Helper}
    (hhelper : helper ∈ g.helpers) : name helper ∈ g.binaryVariables name :=
  mem_binaryVariables.mpr (.inr ⟨helper, hhelper, rfl⟩)

theorem standIn_mem_binaryVariables {name : Helper → Char} (hp : p ∈ g.productions)
    (hlong : 2 ≤ p.rhs.length) (hc : c ∈ p.rhs) :
    g.standIn name c ∈ g.binaryVariables name := by
  unfold standIn
  split
  next hvar => exact mem_binaryVariables.mpr (.inl hvar)
  next hvar => exact name_mem_binaryVariables (terminal_mem_helpers hp hlong hc hvar)

/-- A production is kept if it is short; else its chain is over the variables alone. -/
theorem mem_binarize {name : Helper → Char} (hp : p ∈ g.productions)
    (hq : q ∈ g.binarize name p) :
    (q = p ∧ p.rhs.length < 2) ∨
      q.lhs ∈ g.binaryVariables name ∧ ∀ c ∈ q.rhs, c ∈ g.binaryVariables name := by
  unfold binarize at hq
  split at hq
  next hshort => exact .inl ⟨List.mem_singleton.mp hq, hshort⟩
  next hlong =>
    obtain ⟨hlhs, hrhs⟩ := mem_chain hq
    simp only [List.length_map, Nat.zero_add] at hlhs hrhs
    refine .inr ⟨?_, fun c hc => ?_⟩
    · rcases hlhs with hlhs | ⟨i, hi, hlhs⟩
      · exact hlhs ▸ mem_binaryVariables.mpr (.inl (g.lhs_mem p hp))
      · exact hlhs ▸ name_mem_binaryVariables (link_mem_helpers hp hi)
    · rcases hrhs c hc with hsymbol | ⟨i, hi, rfl⟩
      · obtain ⟨d, hd, rfl⟩ := List.mem_map.mp hsymbol
        exact standIn_mem_binaryVariables hp (Nat.not_lt.mp hlong) hd
      · exact name_mem_binaryVariables (link_mem_helpers hp hi)

/-- The grammar whose long productions are chains over named helpers. -/
def binary (g : Grammar) (name : Helper → Char)
    (hname : ∀ helper ∈ g.helpers, name helper ∉ g.terminals) (acceptsEmpty : Bool) : Grammar :=
  { g with
    vars := g.binaryVariables name
    productions := g.binaryProductions name
    kind := .contextFree
    acceptsEmpty := acceptsEmpty
    start_mem := mem_binaryVariables.mpr (.inl g.start_mem)
    disjoint := fun c hc hvar => by
      rcases mem_binaryVariables.mp hvar with hold | ⟨helper, hhelper, rfl⟩
      · exact g.disjoint c hc hold
      · exact hname helper hhelper hc
    lhs_mem := fun q hq => by
      rcases mem_binaryProductions.mp hq with ⟨p, hp, hbinary⟩ | ⟨c, hc, rfl⟩
      · rcases mem_binarize hp hbinary with ⟨rfl, _⟩ | hchain
        · exact mem_binaryVariables.mpr (.inl (g.lhs_mem q hp))
        · exact hchain.1
      · exact name_mem_binaryVariables hc
    rhs_mem := fun q hq c hc => by
      rcases mem_binaryProductions.mp hq with ⟨p, hp, hbinary⟩ | ⟨d, hd, rfl⟩
      · rcases mem_binarize hp hbinary with ⟨rfl, _⟩ | hchain
        · exact (g.rhs_mem q hp c hc).imp_left fun h => mem_binaryVariables.mpr (.inl h)
        · exact .inl (hchain.2 c hc)
      · obtain rfl := List.mem_singleton.mp hc
        obtain ⟨p, hp, hhelper⟩ := mem_helpers.mp hd
        unfold helpersOf at hhelper
        split at hhelper
        next => exact absurd hhelper List.not_mem_nil
        next =>
          simp only [List.mem_append, List.mem_map, List.mem_filter, decide_eq_true_eq,
            Helper.terminal.injEq, exists_eq_right, reduceCtorEq, and_false, exists_false,
            or_false] at hhelper
          rcases g.rhs_mem p hp c hhelper.1 with hvar | hterm
          · exact absurd hvar hhelper.2
          · exact .inr hterm
    admitted := fun _ _ => trivial }

/-! ## Conversion -/

/-- Without empty, unit and useless productions. -/
def reduced (g : Grammar) : Grammar := g.removeLambda.removeUnit.removeUseless

/-- A grammar of the same words in normal form; the empty word is a member as before. -/
def toChomskyForm (g : Grammar) : Except GrammarFault Grammar :=
  let reduced := g.reduced
  let helpers := reduced.helpers
  let names := reduced.unusedNames.toArray
  if henough : helpers.size ≤ names.size then
    .ok (reduced.binary (fun helper => (nameOf helpers names helper).getD reduced.start)
      (fun helper hhelper => by
        obtain ⟨name, hunused, hname⟩ := exists_nameOf hhelper henough
        rw [hname, Option.getD_some]
        exact (mem_unusedNames.mp (List.mem_toArray.mp hunused)).2.1)
      (g.acceptsEmpty || g.start ∈ g.nullable))
  else .error .variablesExhausted

end LanguageTheory.Grammar
