import LanguageTheory.Proofs.Flat.Closure
import LanguageTheory.Proofs.Flat.Composition
import LanguageTheory.Proofs.NFA.Determinize

/-!
# Questions about nondeterministic automata without promises

A run reads the edges of every state that it may be in. In a well-formed automaton the states that
it may be in are states of the automaton, so no index is out of range, whatever the word, the state
and the symbol. Only the closure takes states from the caller, and `closure?_flat_eq_none_iff` says
when it fails.
-/

namespace LanguageTheory

namespace FlatNFA

variable {α : Type} [TotalOrd α]

/-- The targets of a state by epsilon edges come from one of finitely many entries. -/
theorem bounded_getEpsilon? (n : FlatNFA α) :
    Bounded fun state => ((n.getEpsilon? state).map SortedSet.toList).getD [] := by
  refine ⟨⟨n.epsilon.toList.flatMap SortedSet.toList, ?_⟩⟩
  intro state target htarget
  unfold getEpsilon? at htarget
  cases hread : n.epsilon[state]? with
  | none => simp [hread] at htarget
  | some targets =>
      have htargets : target ∈ targets.toList := by simpa [hread] using htarget
      exact List.mem_flatMap.mpr ⟨targets, (Array.mem_of_getElem? hread).val, htargets⟩

/-- The states reached from a set by epsilon edges alone, with the set itself. -/
def closure? (n : FlatNFA α) (states : SortedSet Nat) : Option (SortedSet Nat) :=
  SortedSet.closure? n.getEpsilon? n.bounded_getEpsilon? states

/-- The set after one letter, for a set that is already closed. -/
def advance? (n : FlatNFA α) (states : SortedSet Nat) (letter : Nat) : Option (SortedSet Nat) := do
  let reached ← states.toList.foldlM
    (fun reached state => do
      let targets ← n.labelled.get? state letter
      return reached ∪ targets)
    ∅
  n.closure? reached

/-- The set after some letters. -/
def run? (n : FlatNFA α) (states : SortedSet Nat) (letters : List Nat) : Option (SortedSet Nat) :=
  letters.foldlM n.advance? states

/-- Whether the word is recognized; a symbol outside the alphabet is reported. -/
def recognizes? (n : FlatNFA α) (word : List α) : Checked (ForeignSymbol α) Bool := do
  let letters ← Alphabet.encode n.alphabet word
  let start ← n.closure? {0}
  let states ← n.run? start (letters.map Fin.val)
  return states.meets n.finals

/-- Whether the empty word is recognized. -/
def acceptsEmpty? (n : FlatNFA α) : Option Bool := do
  let start ← n.closure? {0}
  return start.meets n.finals

/-- The states reached from one state by reading one symbol, if there are such a state and
symbol. -/
def step? (n : FlatNFA α) (state : Nat) (symbol : α) : Option (Option (SortedSet Nat)) :=
  match n.alphabet.rank? symbol with
  | none => some none
  | some letter =>
      if state < n.labelled.height then do
        let closed ← n.closure? {state}
        let states ← n.advance? closed letter
        return some states
      else some none

/-- The targets of a state on a symbol, if there are such a state and symbol. -/
def targets? (n : FlatNFA α) (state : Nat) (symbol : α) : Option (Option (SortedSet Nat)) :=
  match n.alphabet.rank? symbol with
  | none => some none
  | some letter =>
      if state < n.labelled.height then (n.labelled.get? state letter).map some else some none

end FlatNFA

namespace NFA

variable {α : Type} [TotalOrd α] {n : NFA α} {states : SortedSet Nat} {state : Nat}

theorem getEpsilon?_flat (hstate : state < n.states) :
    n.flat.getEpsilon? state = some (n.epsilonTargets state) :=
  Draft.getEpsilon?_flat_of_lt hstate

theorem closure?_flat (hstates : ∀ state ∈ states, state < n.states) :
    n.flat.closure? states = some (n.closure states) := by
  apply SortedSet.closure?_eq_some (P := (· < n.states)) _ hstates
  intro state hstate
  exact ⟨getEpsilon?_flat hstate, fun target => Draft.lt_of_mem_epsilonTargets⟩

/-- The closure fails exactly on sets with a state out of range. -/
theorem closure?_flat_eq_none_iff :
    n.flat.closure? states = none ↔ ∃ state ∈ states, n.states ≤ state := by
  constructor
  · intro hnone
    by_contra hrange
    push Not at hrange
    rw [closure?_flat hrange] at hnone
    cases hnone
  · rintro ⟨state, hstate, hout⟩
    refine SortedSet.closure?_eq_none ?_ hstate
    rw [FlatNFA.getEpsilon?, Array.getElem?_eq_none_iff]
    exact (Draft.size_epsilon_flat (b := n.toDraft)).le.trans hout

theorem labelled_flat_get? (hstate : state < n.states) (letter : Alphabet.Letter n.alphabet) :
    n.flat.labelled.get? state letter = some (n.targets state letter) :=
  Draft.labelled_flat_get? hstate letter.2

theorem foldl_union_targets (letter : Nat) :
    states.toList.foldl (fun reached state => reached ∪ n.targets state letter) ∅ =
      states.bind fun state => n.targets state letter := by
  have hmem : ∀ (l : List Nat) (reached : SortedSet Nat) (target : Nat),
      target ∈ l.foldl (fun reached state => reached ∪ n.targets state letter) reached ↔
        target ∈ reached ∨ ∃ state ∈ l, target ∈ n.targets state letter := by
    intro l reached target
    induction l generalizing reached with
    | nil => simp
    | cons state l ih => simp [ih, or_assoc]
  apply SortedSet.ext
  intro target
  simp [hmem, SortedSet.mem_toList]

theorem advance?_flat (hstates : ∀ state ∈ states, state < n.states)
    (letter : Alphabet.Letter n.alphabet) :
    n.flat.advance? states letter = some (n.advance states letter) := by
  have hreads : states.toList.foldlM (m := Option)
      (fun reached state => do
        let targets ← n.flat.labelled.get? state letter
        return reached ∪ targets) ∅ = some (states.bind fun state => n.targets state letter) := by
    rw [← foldl_union_targets]
    refine (foldlM_eq_some (P := fun _ => True) ?_ trivial).1
    intro reached _ state hstate
    rw [labelled_flat_get? (hstates state hstate)]
    exact ⟨rfl, trivial⟩
  have hbound : ∀ target ∈ states.bind (fun state => n.targets state letter),
      target < n.states := by
    intro target htarget
    obtain ⟨state, _, htarget⟩ := SortedSet.mem_bind.mp htarget
    exact Draft.lt_of_mem_targets htarget
  exact access_eq_some hreads (closure?_flat hbound)

theorem closure?_flat_zero : n.flat.closure? {0} = some n.initial := by
  apply closure?_flat
  intro state hstate
  rw [SortedSet.mem_singleton.mp hstate]
  exact n.states_pos

theorem run?_flat (hstates : ∀ state ∈ states, state < n.states)
    (letters : List (Alphabet.Letter n.alphabet)) :
    n.flat.run? states (letters.map Fin.val) = some (n.run states letters) := by
  rw [FlatNFA.run?, List.foldlM_map]
  refine (foldlM_eq_some (P := fun states => ∀ state ∈ states, state < n.states) ?_ hstates).1
  intro states hstates letter _
  exact ⟨advance?_flat hstates letter, fun _ => lt_of_mem_advance⟩

/-! ## Questions -/

theorem shows_recognizes (word : List α) :
    Shows id (n.flat.recognizes? word) (n.recognizes word) := by
  have hanswer : n.recognizes word = (do
      let letters ← Alphabet.encode n.alphabet word
      .ok ((n.run n.initial letters).meets n.finals)) := by
    unfold recognizes
    cases Alphabet.encode n.alphabet word <;> rfl
  rw [hanswer]
  apply Shows.check.bind
  intro letters
  apply Shows.access closure?_flat_zero
  apply Shows.access (run?_flat (fun _ => lt_of_mem_initial) letters)
  exact Shows.pure _

theorem acceptsEmpty?_flat : n.flat.acceptsEmpty? = some n.acceptsEmpty :=
  access_eq_some closure?_flat_zero rfl

theorem step?_flat (state : Nat) (symbol : α) :
    n.flat.step? state symbol = some (n.step? state symbol) := by
  have hrank : n.flat.alphabet.rank? symbol = n.alphabet.rank? symbol := rfl
  have hheight : n.flat.labelled.height = n.states := rfl
  unfold FlatNFA.step? step?
  rw [hrank, hheight]
  cases n.alphabet.rank? symbol with
  | none => rfl
  | some letter =>
      by_cases hstate : state < n.states
      · have hstates : ∀ p ∈ ({state} : SortedSet Nat), p < n.states := by
          intro p hp
          rwa [SortedSet.mem_singleton.mp hp]
        simp only [if_pos hstate]
        apply access_eq_some (closure?_flat hstates)
        exact access_eq_some (advance?_flat (fun _ => lt_of_mem_closure hstates) letter) rfl
      · simp only [if_neg hstate]

theorem targets?_flat (state : Nat) (symbol : α) :
    n.flat.targets? state symbol = some (n.targets? state symbol) := by
  have hrank : n.flat.alphabet.rank? symbol = n.alphabet.rank? symbol := rfl
  have hheight : n.flat.labelled.height = n.states := rfl
  unfold FlatNFA.targets? targets?
  rw [hrank, hheight]
  cases n.alphabet.rank? symbol with
  | none => rfl
  | some letter =>
      by_cases hstate : state < n.states
      · simp only [if_pos hstate, labelled_flat_get? hstate, Option.map_some]
      · simp only [if_neg hstate]

end NFA

end LanguageTheory
