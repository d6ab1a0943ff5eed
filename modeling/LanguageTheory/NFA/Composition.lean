import LanguageTheory.NFA.Basic

/-!
# Composition of nondeterministic automata

Product, union and star are built by splicing copies of the operands and joining them by epsilon
edges. Operands over different alphabets are refused.
-/

namespace LanguageTheory.NFA

variable {α : Type} [TotalOrd α]

/-- Words of `first` followed by words of `second`: every final state of the first copy leads to
the initial state of the second. -/
def concat (first second : NFA α) : Except (AutomatonFault α) (NFA α) := do
  let one ← (Draft.empty first.alphabet).splice first.toDraft
  let two ← one.splice second.toDraft
  let offset := one.states
  let joined ← first.finals.toList.foldlM (fun b final => b.addEpsilon final offset) two
  let marked ← second.finals.toList.foldlM (fun b final => b.markFinal (offset + final)) joined
  marked.build

/-- Words of either operand: a new initial state branches into both copies, whose final states lead
to one new final state. -/
def union (left right : NFA α) : Except (AutomatonFault α) (NFA α) := do
  let one ← (Draft.empty left.alphabet).addState.splice left.toDraft
  let two ← one.splice right.toDraft
  let ending := two.states
  let joinOperand := fun (b : Draft α) (operand : NFA α) (offset : Nat) => do
    let entered ← b.addEpsilon 0 offset
    operand.finals.toList.foldlM (fun b final => b.addEpsilon (offset + final) ending) entered
  let joinedLeft ← joinOperand two.addState left 1
  let joined ← joinOperand joinedLeft right one.states
  let marked ← joined.markFinal ending
  marked.build

/-- Any number of words of the operand: a new initial state leads into the copy and past it, and
every final state of the copy leads back and out. -/
def star (item : NFA α) : Except (AutomatonFault α) (NFA α) := do
  let copied ← (Draft.empty item.alphabet).addState.splice item.toDraft
  let ending := copied.states
  let entered ← copied.addState.addEpsilon 0 1
  let skipped ← entered.addEpsilon 0 ending
  let joined ← item.finals.toList.foldlM
    (fun b final => do
      let back ← b.addEpsilon (1 + final) 0
      back.addEpsilon (1 + final) ending)
    skipped
  let marked ← joined.markFinal ending
  marked.build

end LanguageTheory.NFA
