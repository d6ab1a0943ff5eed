import LanguageTheory.DFA.Basic
import LanguageTheory.Proofs.Flat.Closure
import LanguageTheory.Proofs.Flat.Draft

/-!
# Deterministic automata without promises

A flat deterministic automaton has its targets in an array and its final states in a set of
numbers, and is read by index. On what is well formed, as the automata of the library are
(`DFA.wellFormed_flat`), no index is out of range (`DFA.shows_recognizes`).
-/

namespace LanguageTheory

/-- A deterministic automaton in arrays. -/
structure FlatDFA (α : Type) [TotalOrd α] where
  alphabet : Alphabet α
  table : FlatTable Nat
  finals : SortedSet Nat
deriving DecidableEq

namespace FlatDFA

variable {α : Type} [TotalOrd α] {d : FlatDFA α}

open AutomatonFault

/-- A row for every state, a column for every letter, and all states in range. -/
structure WellFormed (d : FlatDFA α) : Prop where
  width : d.table.width = d.alphabet.size
  cells : d.table.cells.size = d.table.height * d.table.width
  table_lt : ∀ target ∈ d.table.cells, target < d.table.height
  finals_lt : ∀ state ∈ d.finals, state < d.table.height

/-! ## Questions -/

/-- The state after some letters. -/
def run? (d : FlatDFA α) (state : Nat) (letters : List Nat) : Option Nat :=
  letters.foldlM d.table.get? state

/-- Whether the word is recognized; a symbol outside the alphabet is reported. -/
def recognizes? (d : FlatDFA α) (word : List α) : Checked (ForeignSymbol α) Bool := do
  let letters ← Alphabet.encode d.alphabet word
  let state ← d.run? 0 (letters.map Fin.val)
  return state ∈ d.finals

/-- The target of a transition, if there are such a state and symbol. -/
def transition? (d : FlatDFA α) (state : Nat) (symbol : α) : Option (Option Nat) :=
  match d.alphabet.rank? symbol with
  | none => some none
  | some letter =>
      if state < d.table.height then (d.table.get? state letter).map some else some none

/-- The targets of a state on all letters. -/
def successors? (d : FlatDFA α) (state : Nat) : Option (SortedSet Nat) :=
  (d.table.row? state).map .ofList

/-- The targets of a state come from one of finitely many cells. -/
theorem bounded_successors? (d : FlatDFA α) :
    Bounded fun state => ((d.successors? state).map SortedSet.toList).getD [] := by
  refine ⟨⟨d.table.cells.toList, ?_⟩⟩
  intro state target htarget
  unfold successors? FlatTable.row? at htarget
  split at htarget
  next =>
    have hrow := SortedSet.mem_ofList.mp (SortedSet.mem_toList.mp htarget)
    exact List.mem_of_mem_drop (List.mem_of_mem_take hrow)
  next => exact absurd htarget List.not_mem_nil

/-- The states reached from the initial one. -/
def reachable? (d : FlatDFA α) : Option (SortedSet Nat) :=
  SortedSet.closure? d.successors? d.bounded_successors? {0}

end FlatDFA

namespace DFA

variable {α : Type} [TotalOrd α] {A : Alphabet α} {states : Nat} {d : DFA α} {f : FlatDFA α}

open AutomatonFault

/-- The numbers of the marked states. -/
def marked (marks : Vector Bool states) : SortedSet Nat :=
  .ofList (((List.finRange states).filter marks.get).map Fin.val)

/-- An automaton in arrays. -/
def flat (d : DFA α) : FlatDFA α := ⟨d.alphabet, d.table.flat Fin.val, marked d.accepting⟩

theorem mem_marked {marks : Vector Bool states} {state : Nat} :
    state ∈ marked marks ↔ ∃ h : state < states, marks[state] := by
  simp only [marked, SortedSet.mem_ofList, List.mem_map, List.mem_filter, List.mem_finRange,
    true_and]
  constructor
  · rintro ⟨q, hq, rfl⟩
    exact ⟨q.2, hq⟩
  · rintro ⟨h, hmark⟩
    exact ⟨⟨state, h⟩, hmark, rfl⟩

theorem val_mem_marked {marks : Vector Bool states} {state : Fin states} :
    state.val ∈ marked marks ↔ marks.get state := by
  rw [mem_marked]
  exact ⟨fun h => h.2, fun h => ⟨state.2, h⟩⟩

/-! ## Well-formedness -/

theorem wellFormed_flat (d : DFA α) : d.flat.WellFormed where
  width := rfl
  cells := by simp [flat, Table.flat]
  table_lt := by
    intro target htarget
    obtain ⟨q, _, rfl⟩ := Array.mem_map.mp htarget
    exact q.2
  finals_lt := by
    intro state hstate
    exact (mem_marked.mp hstate).1

/-- The automata are the well-formed flat ones with a state. -/
theorem exists_flat_iff : (∃ d : DFA α, d.flat = f) ↔ f.WellFormed ∧ 0 < f.table.height := by
  constructor
  · rintro ⟨d, rfl⟩
    exact ⟨d.wellFormed_flat, d.states_pos⟩
  · rintro ⟨h, hpos⟩
    obtain ⟨A, ⟨width, states, cells⟩, finals⟩ := f
    obtain ⟨hwidth, hcells, htable, hfinals⟩ := h
    obtain rfl : width = A.size := hwidth
    have hsize : cells.size = states * A.size := hcells
    refine ⟨⟨A, states, hpos, ⟨.ofFn fun i => ⟨cells[i], htable _ (Array.getElem_mem _)⟩⟩,
      .ofFn fun state => state.val ∈ finals⟩, ?_⟩
    have htargets : (Table.mk (Vector.ofFn fun i : Fin (states * A.size) =>
        (⟨cells[i], htable _ (Array.getElem_mem _)⟩ : Fin states))).flat Fin.val =
          ⟨A.size, states, cells⟩ := by
      simp only [Table.flat, FlatTable.mk.injEq, true_and]
      apply Array.ext <;> simp [hsize]
    rw [flat, htargets]
    congr 1
    apply SortedSet.ext
    intro state
    simp only [mem_marked, Vector.getElem_ofFn, decide_eq_true_eq]
    exact ⟨fun hstate => hstate.2, fun hstate => ⟨hfinals state hstate, hstate⟩⟩

/-- The arrays of an automaton, by what they hold. -/
theorem flat_eq {targets : Nat → Nat → Nat} {finals : SortedSet Nat}
    (htargets : ∀ (state : d.State) (letter : d.Letter),
      targets state letter = (d.next state letter).val)
    (hfinals : ∀ state, state ∈ finals ↔ ∃ h : state < d.states, d.isFinal ⟨state, h⟩) :
    d.flat = ⟨d.alphabet, .ofFn d.states d.alphabet.size targets, finals⟩ := by
  have htable : d.table.flat Fin.val = .ofFn d.states d.alphabet.size targets :=
    Table.flat_eq_ofFn htargets
  have hmarks : marked d.accepting = finals := by
    apply SortedSet.ext
    intro state
    rw [mem_marked, hfinals]
    rfl
  rw [flat, htable, hmarks]

/-! ## Questions -/

theorem table_get?_flat (state : d.State) (letter : d.Letter) :
    d.flat.table.get? state letter = some (d.next state letter).val :=
  Table.get?_flat Fin.val d.table state letter

theorem run?_flat (state : d.State) (letters : List d.Letter) :
    d.flat.run? state (letters.map Fin.val) = some (d.run state letters).val := by
  induction letters generalizing state with
  | nil => rfl
  | cons letter letters ih =>
      exact access_eq_some (table_get?_flat state letter) (ih _)

theorem shows_recognizes (word : List α) :
    Shows id (d.flat.recognizes? word) (d.recognizes word) := by
  have hanswer : d.recognizes word = (do
      let letters ← Alphabet.encode d.alphabet word
      .ok (d.isFinal (d.run d.start letters))) := by
    unfold recognizes
    cases Alphabet.encode d.alphabet word <;> rfl
  rw [hanswer]
  apply Shows.check.bind
  intro letters
  apply Shows.access (run?_flat d.start letters)
  have hfinal : decide ((d.run d.start letters).val ∈ d.flat.finals) =
      d.isFinal (d.run d.start letters) := by
    rw [Bool.eq_iff_iff, decide_eq_true_eq]
    exact val_mem_marked
  rw [hfinal]
  exact Shows.pure _

theorem transition?_flat (state : Nat) (symbol : α) :
    d.flat.transition? state symbol = some ((d.transition? state symbol).map Fin.val) := by
  have hrank : d.flat.alphabet.rank? symbol = d.alphabet.rank? symbol := rfl
  have hheight : d.flat.table.height = d.states := rfl
  unfold FlatDFA.transition? transition?
  rw [hrank, hheight]
  cases d.alphabet.rank? symbol with
  | none => rfl
  | some letter =>
      by_cases hstate : state < d.states
      · simp only [if_pos hstate, dif_pos hstate, table_get?_flat ⟨state, hstate⟩ letter,
          Option.map_some]
      · simp only [if_neg hstate, dif_neg hstate, Option.map_none]

end DFA

end LanguageTheory
