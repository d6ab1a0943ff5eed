import LanguageTheory.Proofs.Flat.Table

/-!
# Tables on a machine

The size of a table and the index of a cell are computed in the numbers of a machine. A number that
is too large ends the call, or wraps around, as the program is built. A table that the machine has
room for is made and read as if there were no limit (`FlatTable.read?_eq_get?`). A table whose size
wraps around has too few cells, and whoever reads it through finds one missing
(`FlatTable.exists_read?_eq_none`).
-/

namespace LanguageTheory

/-- What becomes of a number that is too large. -/
inductive Overflow where
  | stops
  | wraps
deriving DecidableEq

/-- The result of a computation, if it is a number or numbers wrap around. -/
def Machine.number? (m : Machine) (mode : Overflow) (n : Nat) : Option Nat :=
  if n ≤ m.maxNumber then some n
  else
    match mode with
    | .stops => none
    | .wraps => some (n % (m.maxNumber + 1))

theorem Machine.number?_of_le {m : Machine} {mode : Overflow} {n : Nat} (h : n ≤ m.maxNumber) :
    m.number? mode n = some n :=
  if_pos h

namespace FlatTable

variable {β : Type}

/-! ## Access -/

/-- The table with the same value everywhere, as large as its size is computed to be. -/
def allocate? (m : Machine) (mode : Overflow) (height width : Nat) (fill : β) :
    Option (FlatTable β) := do
  let size ← m.number? mode (height * width)
  m.allocate size
  return ⟨width, height, .replicate size fill⟩

/-- The index of a cell; the column is checked against the width. -/
def index? (t : FlatTable β) (m : Machine) (mode : Overflow) (row column : Nat) : Option Nat :=
  if column < t.width then do
    let start ← m.number? mode (row * t.width)
    m.number? mode (start + column)
  else none

/-- Reads a cell; its index is checked against the array. -/
def read? (t : FlatTable β) (m : Machine) (mode : Overflow) (row column : Nat) : Option β := do
  let index ← t.index? m mode row column
  t.cells[index]?

/-- Writes a cell; its index is checked against the array. -/
def write? (t : FlatTable β) (m : Machine) (mode : Overflow) (row column : Nat) (value : β) :
    Option (FlatTable β) := do
  let index ← t.index? m mode row column
  if h : index < t.cells.size then some { t with cells := t.cells.set index value } else none

/-- Copies the first cells of a row of another table, each unless it is empty. -/
def copyRow? (t : FlatTable β) (m : Machine) (mode : Overflow) (source : FlatTable (Option β))
    (row columns : Nat) : Option (FlatTable β) :=
  (List.range columns).foldlM
    (fun t column => do
      let value ← source.read? m mode row column
      match value with
      | none => return t
      | some value => t.write? m mode row column value)
    t

/-- Copies row after row. -/
def copy? (t : FlatTable β) (m : Machine) (mode : Overflow) (source : FlatTable (Option β))
    (rows columns : Nat) : Option (FlatTable β) :=
  (List.range rows).foldlM (fun t row => t.copyRow? m mode source row columns) t

variable {m : Machine} {mode : Overflow} {t u : FlatTable β} {f : Nat → Nat → β}
  {row column height width : Nat} {value fill : β}

/-! ## Tables that there is room for -/

theorem allocate?_of_le (h : height * width ≤ m.maxCells) :
    allocate? m mode height width fill = some (filled height width fill) := by
  have hnumber : height * width ≤ m.maxNumber := h.trans (Nat.le_of_add_right_le m.cells_le)
  rw [allocate?, Machine.number?_of_le hnumber, Option.bind_eq_bind, Option.bind_some,
    Machine.allocate_of_le h]
  rfl

theorem index?_of_le (hcolumn : column < t.width) (h : row * t.width + column ≤ m.maxNumber) :
    t.index? m mode row column = some (row * t.width + column) := by
  rw [index?, if_pos hcolumn, Machine.number?_of_le (Nat.le_of_add_right_le h)]
  exact Machine.number?_of_le h

theorem read?_eq_get? (h : row * t.width + column ≤ m.maxNumber) :
    t.read? m mode row column = t.get? row column := by
  by_cases hcolumn : column < t.width
  · rw [read?, index?_of_le hcolumn h, get?, if_pos hcolumn]
    rfl
  · rw [read?, index?, if_neg hcolumn, get?, if_neg hcolumn]
    rfl

theorem write?_eq_set? (h : row * t.width + column ≤ m.maxNumber) :
    t.write? m mode row column value = t.set? row column value := by
  by_cases hcolumn : column < t.width
  · rw [write?, index?_of_le hcolumn h, set?, if_pos hcolumn]
    rfl
  · rw [write?, index?, if_neg hcolumn, set?, if_neg hcolumn]
    rfl

section Room

variable {source : FlatTable (Option β)} {known : Nat → Nat → Option β} {rows : Nat}
  (hroom : height * width ≤ m.maxCells)
include hroom

theorem index_le_maxNumber (hrow : row < height) (hcolumn : column < width) :
    row * width + column ≤ m.maxNumber :=
  calc row * width + column ≤ height * width := Nat.le_of_lt (Table.index_lt hrow hcolumn)
    _ ≤ m.maxCells := hroom
    _ ≤ m.maxNumber := Nat.le_of_add_right_le m.cells_le

/-- Copying a row replaces what is not empty in it. -/
theorem copyRow?_ofFn (hrow : row < height)
    (hsource : ∀ column < width, source.read? m mode row column = some (known row column)) :
    (ofFn height width f).copyRow? m mode source row width =
      some (ofFn height width fun r c => if r = row then (known r c).getD (f r c) else f r c) := by
  -- after some columns the row has what is copied up to there
  have hloop := foldlM_range (m := Option) (n := width)
    (f := fun (t : FlatTable β) column => source.read? m mode row column >>= fun
      | none => pure t
      | some value => t.write? m mode row column value)
    (s := fun k => ofFn height width fun r c =>
      if r = row ∧ c < k then (known r c).getD (f r c) else f r c)
    (fun k hk => by
      have hindex := index_le_maxNumber hroom hrow hk
      rw [hsource k hk, Option.bind_eq_bind, Option.bind_some]
      cases hknown : known row k with
      | none =>
          refine congrArg some (ofFn_congr fun r _ c _ => ?_)
          grind
      | some value =>
          refine (write?_eq_set? hindex).trans ((set?_ofFn hrow hk).trans ?_)
          refine congrArg some (ofFn_congr fun r _ c _ => ?_)
          grind)
  simp only [Nat.not_lt_zero, and_false, if_false] at hloop
  refine hloop.trans (congrArg some (ofFn_congr fun r _ c hc => ?_))
  simp [hc]

theorem copy?_ofFn (hrows : rows ≤ height) (hsource : ∀ row < rows, ∀ column < width,
      source.read? m mode row column = some (known row column)) :
    (ofFn height width f).copy? m mode source rows width =
      some (ofFn height width fun r c =>
        if r < rows then (known r c).getD (f r c) else f r c) := by
  have hloop := foldlM_range (m := Option) (n := rows)
    (f := fun t row => t.copyRow? m mode source row width)
    (s := fun k => ofFn height width fun r c =>
      if r < k then (known r c).getD (f r c) else f r c)
    (fun k hk => by
      rw [copyRow?_ofFn hroom (Nat.lt_of_lt_of_le hk hrows) (hsource k hk)]
      refine congrArg some (ofFn_congr fun r _ c _ => ?_)
      grind)
  simp only [Nat.not_lt_zero, if_false] at hloop
  exact hloop

end Room

/-- Rows without columns are copied at once, however many there are. -/
theorem copy?_zero {source : FlatTable (Option β)} {rows : Nat} :
    t.copy? m mode source rows 0 = some t := by
  unfold copy?
  induction List.range rows with
  | nil => rfl
  | cons row l ih => exact ih

/-! ## Tables whose size wraps around -/

/-- A table that there is no room for is made only where its size wraps around, and then has fewer
cells than it should. -/
theorem eq_wraps_of_allocate?_eq_some (hroom : m.maxCells < height * width)
    (hmade : allocate? m mode height width fill = some t) :
    mode = .wraps ∧ t.width = width ∧ t.cells.size < height * width ∧
      t.cells.size ≤ m.maxNumber := by
  rw [allocate?, Option.bind_eq_bind, Option.bind_eq_some_iff] at hmade
  obtain ⟨size, hsize, hmade⟩ := hmade
  rw [Option.bind_eq_bind, Option.bind_eq_some_iff] at hmade
  obtain ⟨_, hallocate, hmade⟩ := hmade
  obtain rfl := Option.some.inj hmade
  have hfits : size ≤ m.maxCells := by
    by_contra hlarge
    rw [Machine.allocate_of_lt (Nat.lt_of_not_le hlarge)] at hallocate
    cases hallocate
  have hcells := m.cells_le
  simp only [Array.size_replicate]
  refine ⟨?_, trivial, by omega, by omega⟩
  cases mode with
  | wraps => rfl
  | stops =>
      rw [Machine.number?] at hsize
      split at hsize
      · obtain rfl := Option.some.inj hsize
        omega
      · cases hsize

theorem allocate?_eq_none (hroom : m.maxCells < height * width)
    (hnumber : mode = .stops ∨ height * width ≤ m.maxNumber) :
    allocate? m mode height width fill = none := by
  rcases hnumber with rfl | hnumber
  · rw [Option.eq_none_iff_forall_ne_some]
    intro t hmade
    cases (eq_wraps_of_allocate?_eq_some hroom hmade).1
  · rw [allocate?, Machine.number?_of_le hnumber, Option.bind_eq_bind, Option.bind_some,
      Machine.allocate_of_lt hroom]
    rfl

/-- Writing keeps the size. -/
theorem size_of_write? (hwrite : t.write? m mode row column value = some u) :
    u.width = t.width ∧ u.cells.size = t.cells.size := by
  rw [write?, Option.bind_eq_bind, Option.bind_eq_some_iff] at hwrite
  obtain ⟨index, _, hwrite⟩ := hwrite
  by_cases hindex : index < t.cells.size
  · rw [dif_pos hindex] at hwrite
    obtain rfl := Option.some.inj hwrite
    exact ⟨rfl, Array.size_set hindex⟩
  · rw [dif_neg hindex] at hwrite
    cases hwrite

/-- A copy that is made has read all that it is made of. -/
theorem read?_ne_none_of_copy?_eq_some {source : FlatTable (Option β)} {rows columns : Nat}
    (hmade : t.copy? m mode source rows columns = some u) (hrow : row < rows)
    (hcolumn : column < columns) : source.read? m mode row column ≠ none := by
  obtain ⟨before, after, hcopied⟩ := exists_step_of_foldlM_eq_some hmade (List.mem_range.mpr hrow)
  obtain ⟨_, _, hstep⟩ := exists_step_of_foldlM_eq_some hcopied (List.mem_range.mpr hcolumn)
  intro hnone
  rw [hnone] at hstep
  cases hstep

/-- A table with fewer cells than rows and columns demand lacks a cell that they demand. -/
theorem exists_read?_eq_none (hsize : t.cells.size < height * t.width)
    (hnumber : t.cells.size ≤ m.maxNumber) :
    ∃ row < height, ∃ column < t.width, t.read? m mode row column = none := by
  have hwidth := Table.width_pos_of_index hsize
  refine ⟨t.cells.size / t.width, (Nat.div_lt_iff_lt_mul hwidth).mpr hsize,
    t.cells.size % t.width, Nat.mod_lt _ hwidth, ?_⟩
  have hindex := Nat.div_add_mod' t.cells.size t.width
  rw [read?_eq_get? (hindex.le.trans hnumber), get?, if_pos (Nat.mod_lt _ hwidth), hindex,
    Array.getElem?_eq_none_iff]

end FlatTable

/-! ## Calls -/

/-- The call ends as the other one does, seen through `view`. Where that one asks for what the
machine does not have, the call makes nothing, and it does not end if overflow stops it. -/
structure Follows {ε β γ : Type} (mode : Overflow) (view : β → γ) (call : Checked ε γ)
    (answer : Checked ε β) : Prop where
  run_eq : ∀ result, answer.run = some result → call.run = some (result.map view)
  run_ne_ok : answer.run = none → ∀ c, call.run ≠ some (.ok c)
  run_eq_none : answer.run = none → mode = .stops → call.run = none

theorem Shows.follows {ε β γ : Type} {mode : Overflow} {view : β → γ} {call : Checked ε γ}
    {answer : Except ε β} (h : Shows view call answer) :
    Follows mode view call (liftM answer) := by
  have hanswer : (liftM answer : Checked ε β).run = some answer := by cases answer <;> rfl
  constructor
  · intro result hresult
    obtain rfl := Option.some.inj (hanswer.symm.trans hresult)
    exact h
  · intro hnone
    rw [hanswer] at hnone
    cases hnone
  · intro hnone
    rw [hanswer] at hnone
    cases hnone

namespace Follows

variable {ε δ β γ β' γ' : Type} {mode : Overflow} {view : β → γ} {view' : β' → γ'}

theorem pure (b : β) : Follows (ε := ε) mode view (Pure.pure (view b)) (Pure.pure b) :=
  Shows.follows (.pure b)

theorem throw (fault : ε) : Follows mode view (MonadExcept.throw fault : Checked ε γ)
    (MonadExcept.throw fault : Checked ε β) :=
  Shows.follows (.throw fault)

/-- A request that is met is passed. -/
theorem ask {asked : Option δ} {d : δ} {call : Checked ε γ} {after : δ → Checked ε β}
    (hasked : asked = some d) (hnext : Follows mode view call (after d)) :
    Follows mode view call ((liftM asked : Checked ε δ) >>= after) := by
  subst hasked
  exact hnext

/-- An access that succeeds is passed. -/
theorem access {read : Option δ} {d : δ} {next : δ → Checked ε γ} {answer : Checked ε β}
    (hread : read = some d) (hnext : Follows mode view (next d) answer) :
    Follows mode view ((liftM read : Checked ε δ) >>= next) answer := by
  subst hread
  exact hnext

/-- A call that makes nothing follows one that does not end. -/
theorem of_run_eq_none {call : Checked ε γ} {answer : Checked ε β} (hanswer : answer.run = none)
    (hne : ∀ c, call.run ≠ some (.ok c)) (hstops : mode = .stops → call.run = none) :
    Follows mode view call answer where
  run_eq result hresult := by
    rw [hanswer] at hresult
    cases hresult
  run_ne_ok _ := hne
  run_eq_none _ := hstops

theorem fetch {read : Option γ} {found : Option β} (hread : read = found.map view) :
    Follows (ε := ε) mode view (liftM read) (liftM found) := by
  subst hread
  cases found with
  | none => exact of_run_eq_none rfl (fun _ h => nomatch h) (fun _ => rfl)
  | some b => exact pure b

theorem bind {call : Checked ε γ} {answer : Checked ε β} {next : γ → Checked ε γ'}
    {after : β → Checked ε β'} (hcall : Follows mode view call answer)
    (hnext : ∀ b, Follows mode view' (next (view b)) (after b)) :
    Follows mode view' (call >>= next) (answer >>= after) := by
  cases hanswer : answer.run with
  | none =>
      apply of_run_eq_none
      · rw [ExceptT.run_bind, hanswer]
        rfl
      · intro c hmade
        obtain ⟨d, hd, _⟩ := Checked.exists_of_run_bind_eq_ok hmade
        exact hcall.run_ne_ok hanswer d hd
      · intro hmode
        rw [ExceptT.run_bind, hcall.run_eq_none hanswer hmode]
        rfl
  | some result =>
      obtain rfl : answer = ExceptT.mk (some result) := hanswer
      obtain rfl : call = ExceptT.mk (some (result.map view)) := hcall.run_eq result rfl
      cases result with
      | error fault => exact throw fault
      | ok b => exact hnext b

end Follows

end LanguageTheory
