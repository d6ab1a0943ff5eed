import LanguageTheory.DFA.Construction
import LanguageTheory.Proofs.Flat.DFA
import LanguageTheory.Proofs.Flat.Overflow

/-!
# Construction without promises

Transitions are entered in an array, and their targets copied into another one. The sizes of both,
and the number of the trap state, are computed in the numbers of a machine. Where there is room, all
of it is as in the library. Where there is not, overflow stops the construction; if numbers wrap
around, faults may be reported that are none (`FlatDFA.run_ofTransitions?_ne_ok`), but what is made
is made as in the library (`DFA.follows_ofTransitions`, `DFA.follows_withTrap`). The one exception
is a trap state whose number wraps around.
-/

namespace LanguageTheory

namespace FlatDFA

variable {α : Type} [TotalOrd α] (m : Machine) (mode : Overflow)

open AutomatonFault

/-! ## Construction -/

/-- Enters a transition, unless the table has another target for its state and symbol. -/
def enter? (A : Alphabet α) (states : Nat) (table : FlatTable (Option Nat))
    (edge : Transition α) : Checked (AutomatonFault α) (FlatTable (Option Nat)) := do
  let source ← FlatNFA.checkState states edge.source
  let target ← FlatNFA.checkState states edge.target
  let letter ← requireLetter A edge.symbol
  let known ← table.read? m mode source letter
  match known with
  | none => table.write? m mode source letter (some target)
  | some known =>
      if known = target then return table
      else throw (.conflictingTransition edge.source edge.symbol)

/-- The set of the listed states, if there are so many. -/
def requireStates? (states : Nat) (listed : List Nat) :
    Checked (AutomatonFault α) (SortedSet Nat) :=
  listed.foldlM
    (fun found number => do
      let state ← FlatNFA.checkState states number
      return insert state found)
    ∅

/-- The table and the final states that are described. -/
def describe? (A : Alphabet α) (states : Nat) (edges : List (Transition α)) (finals : List Nat) :
    Checked (AutomatonFault α) (FlatTable (Option Nat) × SortedSet Nat) := do
  let table ← FlatTable.allocate? m mode states A.size (none : Option Nat)
  let table ← edges.foldlM (enter? m mode A states) table
  let marked ← requireStates? states finals
  return (table, marked)

/-- The least state, and for it the least letter, without a target. -/
def firstMissing? (A : Alphabet α) (states : Nat) (table : FlatTable (Option Nat)) :
    Option (Option (Nat × Nat)) :=
  (List.range states).findSomeM? fun state => do
    let letter ← (List.range A.size).findM? fun letter =>
      (table.read? m mode state letter).map Option.isNone
    return letter.map (state, ·)

/-- The symbol of a letter. -/
def symbol? (A : Alphabet α) (letter : Nat) : Option α := A.toList[letter]?

/-- The automaton with exactly the given transitions, one for every state and symbol. -/
def ofTransitions? (A : Alphabet α) (states : Nat) (edges : List (Transition α))
    (finals : List Nat) : Checked (AutomatonFault α) (FlatDFA α) :=
  if 0 < states then do
    let (given, marked) ← describe? m mode A states edges finals
    let table ← FlatTable.allocate? m mode states A.size (0 : Nat)
    let missing ← firstMissing? m mode A states given
    match missing with
    | some (state, letter) => do
        let symbol ← (symbol? A letter : Option α)
        throw (.missingTransition state symbol)
    | none => do
        let table ← table.copy? m mode given states A.size
        return ⟨A, table, marked⟩
  else throw .noStates

/-- The automaton with the given transitions, where all others lead to one more state, which is
neither final nor ever left. -/
def withTrap? (A : Alphabet α) (states : Nat) (edges : List (Transition α)) (finals : List Nat) :
    Checked (AutomatonFault α) (FlatDFA α) :=
  if 0 < states then do
    let (given, marked) ← describe? m mode A states edges finals
    let height ← m.number? mode (states + 1)
    let table ← FlatTable.allocate? m mode height A.size states
    let table ← table.copy? m mode given states A.size
    return ⟨A, table, marked⟩
  else throw .noStates

/-! ## Descriptions that there is no room for -/

section NoRoom

variable {A : Alphabet α} {states : Nat} {edges : List (Transition α)} {finals : List Nat}
  {m : Machine} {mode : Overflow} {table after : FlatTable (Option Nat)} {edge : Transition α}

theorem size_of_enter? (hmade : (enter? m mode A states table edge).run = some (.ok after)) :
    after.width = table.width ∧ after.cells.size = table.cells.size := by
  obtain ⟨source, _, hmade⟩ := Checked.exists_of_run_bind_eq_ok hmade
  obtain ⟨target, _, hmade⟩ := Checked.exists_of_run_bind_eq_ok hmade
  obtain ⟨letter, _, hmade⟩ := Checked.exists_of_run_bind_eq_ok hmade
  obtain ⟨known, _, hmade⟩ := Checked.exists_of_run_bind_eq_ok hmade
  cases known with
  | none => exact FlatTable.size_of_write? (Checked.eq_some_of_run_liftM_eq_ok hmade)
  | some known =>
      by_cases hknown : known = target
      · simp only [if_pos hknown] at hmade
        cases hmade
        exact ⟨rfl, rfl⟩
      · simp only [if_neg hknown] at hmade
        cases hmade

variable (hroom : m.maxCells < states * A.size)
include hroom

theorem describe?_stops : (describe? m .stops A states edges finals).run = none := by
  rw [describe?, FlatTable.allocate?_eq_none hroom (.inl rfl)]
  rfl

/-- A table whose size has wrapped around lacks a cell of a state and a letter. -/
theorem exists_read?_eq_none_of_describe? {marked : SortedSet Nat}
    (hmade : (describe? m mode A states edges finals).run = some (.ok (table, marked))) :
    ∃ state < states, ∃ letter < A.size, table.read? m mode state letter = none := by
  obtain ⟨first, hfirst, hmade⟩ := Checked.exists_of_run_bind_eq_ok hmade
  obtain ⟨entered, hentered, hmade⟩ := Checked.exists_of_run_bind_eq_ok hmade
  obtain ⟨found, _, hmade⟩ := Checked.exists_of_run_bind_eq_ok hmade
  cases hmade
  obtain ⟨_, hwidth, hsize, hnumber⟩ :=
    FlatTable.eq_wraps_of_allocate?_eq_some hroom (Checked.eq_some_of_run_liftM_eq_ok hfirst)
  obtain ⟨hwidth', hsize'⟩ := Checked.foldlM_induction
    (P := fun t => t.width = first.width ∧ t.cells.size = first.cells.size) ⟨rfl, rfl⟩
    (fun t edge next ht hnext => by
      obtain ⟨hkeepWidth, hkeepSize⟩ := size_of_enter? hnext
      exact ⟨hkeepWidth.trans ht.1, hkeepSize.trans ht.2⟩)
    hentered
  rw [hwidth] at hwidth'
  rw [← hsize', ← hwidth'] at hsize
  rw [← hsize'] at hnumber
  obtain ⟨row, hrow, column, hcolumn, hread⟩ := FlatTable.exists_read?_eq_none hsize hnumber
  exact ⟨row, hrow, column, hwidth' ▸ hcolumn, hread⟩

/-- Without room no automaton is made of transitions for every state and symbol, whether numbers
wrap around or not. -/
theorem run_ofTransitions?_ne_ok (d : FlatDFA α) :
    (ofTransitions? m mode A states edges finals).run ≠ some (.ok d) := by
  intro hmade
  by_cases hstates : 0 < states
  · rw [ofTransitions?, if_pos hstates] at hmade
    obtain ⟨⟨given, marked⟩, hgiven, hmade⟩ := Checked.exists_of_run_bind_eq_ok hmade
    obtain ⟨table, _, hmade⟩ := Checked.exists_of_run_bind_eq_ok hmade
    obtain ⟨missing, hmissing, hmade⟩ := Checked.exists_of_run_bind_eq_ok hmade
    obtain ⟨state, hstate, letter, hletter, hread⟩ :=
      exists_read?_eq_none_of_describe? hroom hgiven
    cases missing with
    | some cell =>
        obtain ⟨symbol, _, hthrown⟩ := Checked.exists_of_run_bind_eq_ok hmade
        cases hthrown
    | none =>
        -- the search has read every cell, the one that is not there among them
        have hrow := eq_some_none_of_findSomeM?_eq_none
          (Checked.eq_some_of_run_liftM_eq_ok hmissing) (List.mem_range.mpr hstate)
        rw [Option.bind_eq_bind, Option.bind_eq_some_iff] at hrow
        obtain ⟨found, hfound, hnone⟩ := hrow
        cases found with
        | some column => cases hnone
        | none =>
            have hcell := eq_some_false_of_findM?_eq_none hfound (List.mem_range.mpr hletter)
            rw [hread] at hcell
            cases hcell
  · rw [ofTransitions?, if_neg hstates] at hmade
    cases hmade

theorem run_withTrap?_ne_ok (d : FlatDFA α) :
    (withTrap? m mode A states edges finals).run ≠ some (.ok d) := by
  intro hmade
  by_cases hstates : 0 < states
  · rw [withTrap?, if_pos hstates] at hmade
    obtain ⟨⟨given, marked⟩, hgiven, hmade⟩ := Checked.exists_of_run_bind_eq_ok hmade
    obtain ⟨height, _, hmade⟩ := Checked.exists_of_run_bind_eq_ok hmade
    obtain ⟨table, _, hmade⟩ := Checked.exists_of_run_bind_eq_ok hmade
    obtain ⟨copied, hcopied, _⟩ := Checked.exists_of_run_bind_eq_ok hmade
    obtain ⟨state, hstate, letter, hletter, hread⟩ :=
      exists_read?_eq_none_of_describe? hroom hgiven
    exact FlatTable.read?_ne_none_of_copy?_eq_some (Checked.eq_some_of_run_liftM_eq_ok hcopied)
      hstate hletter hread
  · rw [withTrap?, if_neg hstates] at hmade
    cases hmade

end NoRoom

/-- Over no symbols there is room for any number of states. With as many as there are numbers, that
of the states and the trap wraps around to zero. -/
theorem shows_withTrap?_maxNumber (hpos : 0 < m.maxNumber) :
    Shows id (withTrap? m .wraps (∅ : Alphabet α) m.maxNumber [] []) (.ok ⟨∅, .empty 0, ∅⟩) := by
  have hroom : ∀ height, height * SortedSet.size (∅ : Alphabet α) ≤ m.maxCells :=
    fun _ => Nat.zero_le _
  have hwrapped : m.number? .wraps (m.maxNumber + 1) = some 0 := by
    rw [Machine.number?, if_neg (Nat.not_succ_le_self _), Nat.mod_self]
  have hgiven : describe? m .wraps (∅ : Alphabet α) m.maxNumber [] [] =
      pure (.filled m.maxNumber 0 none, ∅) := by
    rw [describe?, FlatTable.allocate?_of_le (hroom _)]
    rfl
  rw [withTrap?, if_pos hpos, hgiven, pure_bind]
  apply Shows.access hwrapped
  apply Shows.access (FlatTable.allocate?_of_le (hroom 0))
  apply Shows.access FlatTable.copy?_zero
  exact Shows.pure _

end FlatDFA

namespace DFA

variable {α : Type} [TotalOrd α] {A : Alphabet α} {states : Nat} {m : Machine} {mode : Overflow}

open AutomatonFault

/-! ## Descriptions that there is room for -/

/-- A partial table in an array. -/
def flatPartial (table : PartialTable A states) : FlatTable (Option Nat) :=
  table.flat (Option.map Fin.val)

/-- The numbers of some states. -/
def numbersOf (found : SortedSet (Fin states)) : SortedSet Nat := found.image Fin.val

theorem mem_numbersOf {found : SortedSet (Fin states)} {state : Nat} :
    state ∈ numbersOf found ↔ ∃ h : state < states, ⟨state, h⟩ ∈ found := by
  rw [numbersOf, SortedSet.mem_image]
  constructor
  · rintro ⟨q, hq, rfl⟩
    exact ⟨q.2, hq⟩
  · rintro ⟨h, hfound⟩
    exact ⟨⟨state, h⟩, hfound, rfl⟩

theorem numbersOf_insert (state : Fin states) (found : SortedSet (Fin states)) :
    numbersOf (insert state found) = insert state.val (numbersOf found) := by
  apply SortedSet.ext
  intro number
  simp only [numbersOf, SortedSet.mem_image, SortedSet.mem_insert]
  constructor
  · rintro ⟨q, rfl | hq, rfl⟩
    · exact .inl rfl
    · exact .inr ⟨q, hq, rfl⟩
  · rintro (rfl | ⟨q, hq, rfl⟩)
    · exact ⟨state, .inl rfl, rfl⟩
    · exact ⟨q, .inr hq, rfl⟩

omit [TotalOrd α] in
theorem shows_requireStates (listed : List Nat) :
    Shows (ε := AutomatonFault α) numbersOf (FlatDFA.requireStates? states listed)
      (requireStates states listed) := by
  unfold FlatDFA.requireStates? requireStates
  have hempty : numbersOf (∅ : SortedSet (Fin states)) = ∅ := rfl
  rw [← hempty]
  apply Shows.foldlM
  intro found number _
  apply NFA.Draft.shows_checkState.bind
  intro state
  rw [← numbersOf_insert]
  exact Shows.pure _

section Room

variable (hroom : states * A.size ≤ m.maxCells)
include hroom

theorem read?_flatPartial (table : PartialTable A states) (state : Fin states)
    (letter : Alphabet.Letter A) : (flatPartial table).read? m mode state letter =
      some ((table.get state letter).map Fin.val) :=
  (FlatTable.read?_eq_get? (FlatTable.index_le_maxNumber hroom state.2 letter.2)).trans
    (Table.get?_flat _ table state letter)

theorem shows_enter (table : PartialTable A states) (edge : Transition α) :
    Shows flatPartial (FlatDFA.enter? m mode A states (flatPartial table) edge)
      (enter table edge) := by
  unfold FlatDFA.enter? enter
  apply NFA.Draft.shows_checkState.bind
  intro source
  apply NFA.Draft.shows_checkState.bind
  intro target
  apply Shows.check.bind
  intro letter
  apply Shows.access (read?_flatPartial hroom table source letter)
  have hindex := FlatTable.index_le_maxNumber hroom source.2 letter.2
  have hwrite : (flatPartial table).write? m mode source letter (some target.val) =
      some (flatPartial (table.set source letter (some target))) :=
    (FlatTable.write?_eq_set? hindex).trans
      (Table.set?_flat (Option.map Fin.val) table source letter (some target))
  cases table.get source letter with
  | none => exact Shows.fetch hwrite
  | some known =>
      by_cases hknown : known = target
      · have hval : known.val = target.val := congrArg Fin.val hknown
        simp only [Option.map_some, if_pos hknown, if_pos hval]
        exact Shows.pure table
      · have hval : known.val ≠ target.val := fun h => hknown (Fin.ext h)
        simp only [Option.map_some, if_neg hknown, if_neg hval]
        exact Shows.throw _

theorem follows_describe (edges : List (Transition α)) (finals : List Nat) :
    Follows mode (Prod.map flatPartial numbersOf) (FlatDFA.describe? m mode A states edges finals)
      (describe m A states edges finals) := by
  have hempty : flatPartial (.filled states A.size none) = .filled states A.size none :=
    Table.flat_filled none
  apply Follows.access (FlatTable.allocate?_of_le hroom)
  apply Follows.ask (Machine.allocate_of_le hroom)
  rw [← hempty]
  apply (Shows.foldlM (fun table edge _ => shows_enter hroom table edge) _).follows.bind
  intro table
  apply (shows_requireStates finals).follows.bind
  intro marked
  exact Follows.pure (table, marked)

theorem isNone_flatPartial (table : PartialTable A states) (state : Fin states)
    (letter : Alphabet.Letter A) :
    ((flatPartial table).read? m mode state letter).map Option.isNone =
      some (table.get state letter).isNone := by
  rw [read?_flatPartial hroom, Option.map_some, Option.isNone_map]

theorem firstMissing?_flat (table : PartialTable A states) :
    FlatDFA.firstMissing? m mode A states (flatPartial table) =
      some ((firstMissing table).map fun cell => (cell.1.val, cell.2.val)) := by
  unfold FlatDFA.firstMissing? firstMissing
  rw [List.map_findSome?, ← List.map_coe_finRange_eq_range, ← List.map_coe_finRange_eq_range]
  apply findSomeM?_map_eq_some
  intro state _
  have hletters : ((Alphabet.letters A).map Fin.val).findM?
      (fun letter => ((flatPartial table).read? m mode state letter).map Option.isNone) =
        some (((Alphabet.letters A).find? fun letter => (table.get state letter).isNone).map
          Fin.val) :=
    findM?_map_eq_some fun letter _ => isNone_flatPartial hroom table state letter
  apply access_eq_some hletters
  simp [Function.comp_def]

/-- What is copied from a partial table. -/
def targetOf (table : PartialTable A states) (state letter : Nat) : Option Nat :=
  if h : state < states ∧ letter < A.size then
    (table.get ⟨state, h.1⟩ ⟨letter, h.2⟩).map Fin.val
  else none

omit hroom in
theorem targetOf_val (table : PartialTable A states) (state : Fin states)
    (letter : Alphabet.Letter A) :
    targetOf table state letter = (table.get state letter).map Fin.val :=
  dif_pos ⟨state.2, letter.2⟩

/-- The targets are copied into a table that is at least as high. -/
theorem copy?_flatPartial (table : PartialTable A states) {height fill : Nat}
    (hle : states ≤ height) (hheight : height * A.size ≤ m.maxCells) :
    (FlatTable.filled height A.size fill).copy? m mode (flatPartial table) states A.size =
      some (.ofFn height A.size fun state letter =>
        if state < states then (targetOf table state letter).getD fill else fill) := by
  rw [FlatTable.filled_eq_ofFn]
  apply FlatTable.copy?_ofFn hheight hle
  intro state hstate letter hletter
  have htarget := targetOf_val table ⟨state, hstate⟩ ⟨letter, hletter⟩
  exact (read?_flatPartial hroom table ⟨state, hstate⟩ ⟨letter, hletter⟩).trans
    (congrArg some htarget.symm)

end Room

/-! ## Construction -/

theorem symbol?_eq_some (letter : Alphabet.Letter A) :
    FlatDFA.symbol? A letter = some (A.get letter) := by
  rw [FlatDFA.symbol?, SortedSet.get_eq]
  exact List.getElem?_eq_getElem letter.2

theorem exists_target_of_firstMissing {table : PartialTable A states}
    (hmissing : firstMissing table = none) (state : Fin states) (letter : Alphabet.Letter A) :
    ∃ target, table.get state letter = some target := by
  have hrow := List.findSome?_eq_none_iff.mp hmissing state (List.mem_finRange state)
  have hcell := List.find?_eq_none.mp (Option.map_eq_none_iff.mp hrow) letter
    (Alphabet.mem_letters letter)
  exact Option.ne_none_iff_exists'.mp (by simpa using hcell)

theorem flat_full {hstates : 0 < states} {table : PartialTable A states}
    {marked : SortedSet (Fin states)} (hfull : firstMissing table = none) :
    (full hstates table marked).flat = ⟨A, .ofFn states A.size fun state letter =>
      if state < states then (targetOf table state letter).getD 0 else 0, numbersOf marked⟩ := by
  apply flat_eq (d := full hstates table marked)
  · intro (state : Fin states) (letter : Alphabet.Letter A)
    obtain ⟨target, htarget⟩ := exists_target_of_firstMissing hfull state letter
    rw [if_pos state.2, targetOf_val, next_full, htarget]
    rfl
  · intro state
    rw [mem_numbersOf]
    exact exists_congr fun h => isFinal_full.symm

theorem flat_completion {table : PartialTable A states} {marked : SortedSet (Fin states)} :
    (completion table marked).flat = ⟨A, .ofFn (states + 1) A.size fun state letter =>
      if state < states then (targetOf table state letter).getD states else states,
        numbersOf marked⟩ := by
  apply flat_eq (d := completion table marked)
  · intro state letter
    by_cases hstate : state.val < states
    · have htarget := targetOf_val table ⟨state, hstate⟩ letter
      rw [if_pos hstate, htarget, val_next_of_lt hstate]
    · rw [if_neg hstate, val_next_of_not_lt hstate]
  · intro state
    rw [mem_numbersOf]
    constructor
    · rintro ⟨h, hmarked⟩
      exact ⟨Nat.lt_succ_of_lt h, isFinal_completion.mpr ⟨h, hmarked⟩⟩
    · rintro ⟨_, hfinal⟩
      exact isFinal_completion.mp hfinal

theorem run_describe_eq_none {edges : List (Transition α)} {finals : List Nat}
    (hroom : m.maxCells < states * A.size) : (describe m A states edges finals).run = none := by
  rw [describe, Machine.allocate_of_lt hroom]
  rfl

/-- Construction in arrays is that of the library. -/
theorem follows_ofTransitions (m : Machine) (mode : Overflow) (A : Alphabet α) (states : Nat)
    (edges : List (Transition α)) (finals : List Nat) :
    Follows mode flat (FlatDFA.ofTransitions? m mode A states edges finals)
      (ofTransitions m A states edges finals) := by
  by_cases hstates : 0 < states
  swap
  · rw [FlatDFA.ofTransitions?, if_neg hstates, ofTransitions, dif_neg hstates]
    exact Follows.throw _
  by_cases hroom : states * A.size ≤ m.maxCells
  · rw [FlatDFA.ofTransitions?, if_pos hstates, ofTransitions, dif_pos hstates]
    apply (follows_describe hroom edges finals).bind
    rintro ⟨table, marked⟩
    apply Follows.access (FlatTable.allocate?_of_le hroom)
    apply Follows.access (firstMissing?_flat hroom table)
    cases hmissing : firstMissing table with
    | some cell =>
        simp only [hmissing]
        apply Follows.access (symbol?_eq_some cell.2)
        exact Follows.throw _
    | none =>
        simp only [hmissing]
        apply Follows.access (copy?_flatPartial hroom table (Nat.le_refl states) hroom)
        have hfull : (full hstates table marked).flat = _ := flat_full hmissing
        exact hfull ▸ Follows.pure _
  · have hlarge := Nat.lt_of_not_le hroom
    refine Follows.of_run_eq_none ?_ (FlatDFA.run_ofTransitions?_ne_ok hlarge) ?_
    · rw [ofTransitions, dif_pos hstates, ExceptT.run_bind, run_describe_eq_none hlarge]
      rfl
    · rintro rfl
      rw [FlatDFA.ofTransitions?, if_pos hstates, ExceptT.run_bind,
        FlatDFA.describe?_stops hlarge]
      rfl

/-- Completion in arrays is that of the library, unless the number of the states wraps around. -/
theorem follows_withTrap (m : Machine) (mode : Overflow) (A : Alphabet α) (states : Nat)
    (edges : List (Transition α)) (finals : List Nat)
    (hnumber : mode = .stops ∨ states + 1 ≤ m.maxNumber) :
    Follows mode flat (FlatDFA.withTrap? m mode A states edges finals)
      (withTrap m A states edges finals) := by
  by_cases hstates : 0 < states
  swap
  · rw [FlatDFA.withTrap?, if_neg hstates, withTrap, if_neg hstates]
    exact Follows.throw _
  by_cases hroom : states * A.size ≤ m.maxCells
  · rw [FlatDFA.withTrap?, if_pos hstates, withTrap, if_pos hstates]
    apply (follows_describe hroom edges finals).bind
    rintro ⟨table, marked⟩
    by_cases hcount : states + 1 ≤ m.maxNumber
    · apply Follows.access (Machine.number?_of_le hcount)
      apply Follows.ask (Machine.represent_of_le hcount)
      by_cases hheight : (states + 1) * A.size ≤ m.maxCells
      · apply Follows.access (FlatTable.allocate?_of_le hheight)
        apply Follows.ask (Machine.allocate_of_le hheight)
        apply Follows.access (copy?_flatPartial hroom table (Nat.le_succ states) hheight)
        have hcompletion : (completion table marked).flat = _ := flat_completion
        exact hcompletion ▸ Follows.pure _
      · -- one more row than there is room for is still counted
        have hrow : A.size ≤ states * A.size := Nat.le_mul_of_pos_left _ hstates
        have hsize : (states + 1) * A.size ≤ m.maxNumber := by
          have hcells := m.cells_le
          rw [Nat.succ_mul]
          omega
        have hnone : FlatTable.allocate? m mode (states + 1) A.size states = none :=
          FlatTable.allocate?_eq_none (Nat.lt_of_not_le hheight) (.inr hsize)
        rw [hnone, Machine.allocate_of_lt (Nat.lt_of_not_le hheight)]
        exact Follows.of_run_eq_none rfl (fun _ h => nomatch h) (fun _ => rfl)
    · obtain rfl := hnumber.resolve_right hcount
      have hnone : m.number? .stops (states + 1) = none := if_neg hcount
      rw [Prod.map_apply, hnone, Machine.represent_of_lt (Nat.lt_of_not_le hcount)]
      exact Follows.of_run_eq_none rfl (fun _ h => nomatch h) (fun _ => rfl)
  · have hlarge := Nat.lt_of_not_le hroom
    refine Follows.of_run_eq_none ?_ (FlatDFA.run_withTrap?_ne_ok hlarge) ?_
    · rw [withTrap, if_pos hstates, ExceptT.run_bind, run_describe_eq_none hlarge]
      rfl
    · rintro rfl
      rw [FlatDFA.withTrap?, if_pos hstates, ExceptT.run_bind, FlatDFA.describe?_stops hlarge]
      rfl

end DFA

end LanguageTheory
