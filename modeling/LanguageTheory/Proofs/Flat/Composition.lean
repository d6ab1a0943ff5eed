import LanguageTheory.Regex.Compile
import LanguageTheory.Proofs.Flat.Draft

/-!
# Composition without promises

The constructions of nondeterministic automata go from one operation on a draft to the next. Each
step is shown by its flat form, so the whole construction is: on well-formed operands no index is
out of range, and the result is the library's (`NFA.shows_concat`, `Regex.shows_toNFA`).
-/

namespace LanguageTheory

namespace FlatNFA

variable {α : Type} [TotalOrd α]

/-- The automaton of a draft that has a state. -/
def build? (b : FlatNFA α) : Checked (AutomatonFault α) (FlatNFA α) :=
  if 0 < b.epsilon.size then pure b else throw .noStates

/-- The automaton with exactly the given edges and final states. -/
def ofTransitions? (A : Alphabet α) (states : Nat) (edges : List (Transition α))
    (epsilon : List (Nat × Nat)) (finals : List Nat) :
    Checked (AutomatonFault α) (FlatNFA α) := do
  let labelled ← edges.foldlM addTransition? ((empty A).addStates states)
  let joined ← epsilon.foldlM (fun b edge => b.addEpsilon? edge.1 edge.2) labelled
  let marked ← finals.foldlM markFinal? joined
  marked.build?

/-- Recognizes nothing. -/
def emptyLanguage (A : Alphabet α) : FlatNFA α := (empty A).addState

/-- Recognizes the empty word only. -/
def emptyWord (A : Alphabet α) : FlatNFA α :=
  let b := (empty A).addState
  { b with finals := insert 0 b.finals }

/-- Recognizes one symbol. -/
def symbol? (A : Alphabet α) (symbol : α) : Checked (AutomatonFault α) (FlatNFA α) := do
  let edge ← ((empty A).addStates 2).addTransition? ⟨0, symbol, 1⟩
  let marked ← edge.markFinal? 1
  marked.build?

/-- Words of `first` followed by words of `second`. -/
def concat? (first second : FlatNFA α) : Checked (AutomatonFault α) (FlatNFA α) := do
  let one ← (empty first.alphabet).splice? first
  let two ← one.splice? second
  let offset := one.epsilon.size
  let joined ← first.finals.toList.foldlM (fun b final => b.addEpsilon? final offset) two
  let marked ← second.finals.toList.foldlM (fun b final => b.markFinal? (offset + final)) joined
  marked.build?

/-- Leads from the initial state into the copy of an operand, and from its final states to the
ending. -/
def joinOperand? (ending : Nat) (b operand : FlatNFA α) (offset : Nat) :
    Checked (AutomatonFault α) (FlatNFA α) := do
  let entered ← b.addEpsilon? 0 offset
  operand.finals.toList.foldlM (fun b final => b.addEpsilon? (offset + final) ending) entered

/-- Words of either operand. -/
def union? (left right : FlatNFA α) : Checked (AutomatonFault α) (FlatNFA α) := do
  let one ← (empty left.alphabet).addState.splice? left
  let two ← one.splice? right
  let ending := two.epsilon.size
  let joinedLeft ← joinOperand? ending two.addState left 1
  let joined ← joinOperand? ending joinedLeft right one.epsilon.size
  let marked ← joined.markFinal? ending
  marked.build?

/-- Any number of words of the operand. -/
def star? (item : FlatNFA α) : Checked (AutomatonFault α) (FlatNFA α) := do
  let copied ← (empty item.alphabet).addState.splice? item
  let ending := copied.epsilon.size
  let entered ← copied.addState.addEpsilon? 0 1
  let skipped ← entered.addEpsilon? 0 ending
  let joined ← item.finals.toList.foldlM
    (fun b final => do
      let back ← b.addEpsilon? (1 + final) 0
      back.addEpsilon? (1 + final) ending)
    skipped
  let marked ← joined.markFinal? ending
  marked.build?

/-- An automaton that recognizes the words of an expression. -/
def compile? (A : Alphabet α) : Regex α → Checked (AutomatonFault α) (FlatNFA α)
  | .emptyLanguage => pure (emptyLanguage A)
  | .emptyWord => pure (emptyWord A)
  | .symbol a => symbol? A a
  | .concat first second => do concat? (← compile? A first) (← compile? A second)
  | .union left right => do union? (← compile? A left) (← compile? A right)
  | .star item => do star? (← compile? A item)

end FlatNFA

namespace NFA

variable {α : Type} [TotalOrd α] {m n : NFA α} {b : Draft α}

/-- An automaton in arrays. -/
def flat (n : NFA α) : FlatNFA α := n.toDraft.flat

/-- The automata are the well-formed flat ones with a state. -/
theorem exists_flat_iff {flat : FlatNFA α} :
    (∃ n : NFA α, n.flat = flat) ↔ flat.WellFormed ∧ 0 < flat.labelled.height := by
  rw [← Draft.exists_flat_iff]
  constructor
  · rintro ⟨n, rfl⟩
    exact ⟨⟨n.toDraft, rfl⟩, n.states_pos⟩
  · rintro ⟨⟨b, rfl⟩, hpos⟩
    exact ⟨{ b with states_pos := hpos }, rfl⟩

/-! ## Construction -/

theorem shows_build : Shows flat b.flat.build? b.build := by
  unfold FlatNFA.build? Draft.build
  rw [Draft.size_epsilon_flat]
  split <;> rfl

theorem shows_ofTransitions (A : Alphabet α) (states : Nat) (edges : List (Transition α))
    (epsilon : List (Nat × Nat)) (finals : List Nat) :
    Shows flat (FlatNFA.ofTransitions? A states edges epsilon finals)
      (ofTransitions A states edges epsilon finals) := by
  unfold FlatNFA.ofTransitions? ofTransitions
  rw [← Draft.flat_empty, ← Draft.flat_addStates]
  apply (Shows.foldlM (fun _ edge _ => Draft.shows_addTransition edge) _).bind
  intro labelled
  apply (Shows.foldlM (fun _ edge _ => Draft.shows_addEpsilon edge.1 edge.2) labelled).bind
  intro joined
  apply (Shows.foldlM (fun _ final _ => Draft.shows_markFinal final) joined).bind
  intro marked
  exact shows_build

theorem flat_emptyLanguage (A : Alphabet α) :
    (emptyLanguage A).flat = .emptyLanguage A := by
  rw [FlatNFA.emptyLanguage, ← Draft.flat_empty, ← Draft.flat_addState]
  rfl

theorem flat_emptyWord (A : Alphabet α) : (emptyWord A).flat = .emptyWord A := by
  rw [FlatNFA.emptyWord, ← Draft.flat_empty, ← Draft.flat_addState]
  rfl

theorem shows_symbol (A : Alphabet α) (a : α) :
    Shows flat (FlatNFA.symbol? A a) (symbol A a) := by
  unfold FlatNFA.symbol? symbol
  rw [← Draft.flat_empty, ← Draft.flat_addStates]
  apply (Draft.shows_addTransition _).bind
  intro edge
  apply (Draft.shows_markFinal 1).bind
  intro marked
  exact shows_build

/-! ## Composition -/

theorem shows_concat : Shows flat (m.flat.concat? n.flat) (m.concat n) := by
  unfold FlatNFA.concat? concat
  rw [← Draft.flat_empty]
  apply Draft.shows_splice.bind
  intro one
  apply Draft.shows_splice.bind
  intro two
  rw [Draft.size_epsilon_flat]
  apply (Shows.foldlM (fun _ final _ => Draft.shows_addEpsilon final one.states) two).bind
  intro joined
  apply (Shows.foldlM (fun _ final _ => Draft.shows_markFinal (one.states + final)) joined).bind
  intro marked
  exact shows_build

theorem shows_union : Shows flat (m.flat.union? n.flat) (m.union n) := by
  unfold FlatNFA.union? union
  rw [← Draft.flat_empty, ← Draft.flat_addState]
  apply Draft.shows_splice.bind
  intro one
  apply Draft.shows_splice.bind
  intro two
  have hjoin : ∀ (b : Draft α) (operand : NFA α) (offset : Nat),
      Shows Draft.flat (FlatNFA.joinOperand? two.states b.flat operand.flat offset) (do
        let entered ← b.addEpsilon 0 offset
        operand.finals.toList.foldlM (fun b final => b.addEpsilon (offset + final) two.states)
          entered) := by
    intro b operand offset
    apply (Draft.shows_addEpsilon 0 offset).bind
    intro entered
    exact Shows.foldlM (fun _ final _ => Draft.shows_addEpsilon (offset + final) two.states) entered
  rw [Draft.size_epsilon_flat, Draft.size_epsilon_flat, ← Draft.flat_addState]
  apply (hjoin two.addState m 1).bind
  intro joinedLeft
  apply (hjoin joinedLeft n one.states).bind
  intro joined
  apply (Draft.shows_markFinal two.states).bind
  intro marked
  exact shows_build

theorem shows_star : Shows flat n.flat.star? n.star := by
  unfold FlatNFA.star? star
  rw [← Draft.flat_empty, ← Draft.flat_addState]
  apply Draft.shows_splice.bind
  intro copied
  rw [Draft.size_epsilon_flat, ← Draft.flat_addState]
  apply (Draft.shows_addEpsilon 0 1).bind
  intro entered
  apply (Draft.shows_addEpsilon 0 copied.states).bind
  intro skipped
  have hback : ∀ (b : Draft α) (final : Nat),
      Shows Draft.flat (do
        let back ← b.flat.addEpsilon? (1 + final) 0
        back.addEpsilon? (1 + final) copied.states) (do
          let back ← b.addEpsilon (1 + final) 0
          back.addEpsilon (1 + final) copied.states) := by
    intro b final
    apply (Draft.shows_addEpsilon (1 + final) 0).bind
    intro back
    exact Draft.shows_addEpsilon (1 + final) copied.states
  apply (Shows.foldlM (fun b final _ => hback b final) skipped).bind
  intro joined
  apply (Draft.shows_markFinal copied.states).bind
  intro marked
  exact shows_build

end NFA

/-! ## Expressions -/

theorem Regex.shows_toNFA {α : Type} [TotalOrd α] (A : Alphabet α) (r : Regex α) :
    Shows NFA.flat (FlatNFA.compile? A r) (r.toNFA A) := by
  induction r with
  | emptyLanguage =>
      rw [FlatNFA.compile?, ← NFA.flat_emptyLanguage]
      exact .pure _
  | emptyWord =>
      rw [FlatNFA.compile?, ← NFA.flat_emptyWord]
      exact .pure _
  | symbol a => exact NFA.shows_symbol A a
  | concat first second ihfirst ihsecond =>
      apply ihfirst.bind
      intro m
      apply ihsecond.bind
      intro n
      exact NFA.shows_concat
  | union left right ihleft ihright =>
      apply ihleft.bind
      intro m
      apply ihright.bind
      intro n
      exact NFA.shows_union
  | star item ih =>
      apply ih.bind
      intro n
      exact NFA.shows_star

end LanguageTheory
