import LanguageTheory.Grammar.ChomskyForm

/-!
# Membership by spans

For a grammar in Chomsky normal form the variables that derive each span of a word are found by
length: a span of two or more symbols is derived by a variable that a production splits into
variables for its two parts.
-/

namespace LanguageTheory

/-- A production that keeps a grammar from being in Chomsky normal form. -/
structure NotChomskyForm where
  production : Production
deriving DecidableEq

/-- The wording of the fault. -/
def NotChomskyForm.message (fault : NotChomskyForm) : String :=
  "grammar is not in Chomsky normal form, found " ++ fault.production.display

namespace Grammar

/-- The variables with a production of the one symbol. -/
def symbolHeads (g : Grammar) (c : Char) : SortedSet Char :=
  .ofList ((g.productions.toList.filter fun p => p.rhs = [c]).map Production.lhs)

/-- The variables with a production of two variables, one from each set. -/
def pairHeads (g : Grammar) (left right : SortedSet Char) : SortedSet Char :=
  if left.isEmpty || right.isEmpty then ∅
  else
    .ofList ((g.productions.toList.filter fun p =>
      match p.rhs with
      | [b, c] => b ∈ left && c ∈ right
      | _ => false).map Production.lhs)

/-- Variables by length of a span, less one, and its start. -/
abbrev Chart := Array (Array (SortedSet Char))

/-- The variables charted for the span of a length at a start. -/
def Chart.cell (chart : Chart) (length start : Nat) : SortedSet Char :=
  (chart.getD (length - 1) #[]).getD start ∅

/-- The variables that derive a span by way of charted parts. -/
def spanHeads (g : Grammar) (chart : Chart) (length start : Nat) : SortedSet Char :=
  .ofList ((List.range (length - 1)).flatMap fun i =>
    let left := chart.cell (i + 1) start
    let right := chart.cell (length - (i + 1)) (start + (i + 1))
    (g.pairHeads left right).toList)

/-- Charts the spans of a word up to a length. -/
def chart (g : Grammar) (word : List Char) : Nat → Chart
  | 0 => #[]
  | 1 => #[(word.map g.symbolHeads).toArray]
  | length + 1 =>
      let shorter := g.chart word length
      shorter.push ((Array.range (word.length - length)).map (g.spanHeads shorter (length + 1)))

/-- Whether a word is a member; the first production that is not in normal form is reported. -/
def isMember (g : Grammar) (word : List Char) : Except NotChomskyForm Bool :=
  match g.firstViolation with
  | some p => .error ⟨p⟩
  | none =>
      .ok (if word.isEmpty then g.acceptsEmpty
        else g.start ∈ (g.chart word word.length).cell word.length 0)

end Grammar

end LanguageTheory
