import LanguageTheory.Table
import LanguageTheory.Proofs.Flat.Checked

/-!
# Tables without promises

A flat table is a width, a height and an array of cells, and nothing says that there are as many
cells as rows and columns demand. Reading and writing are checked, and `none` is an index out of
range. A table of the library is a flat table that never has one: its cells are read and written
at every row and column (`Table.get?_flat`, `Table.set?_flat`).
-/

namespace LanguageTheory

/-! ## Entries -/

/-- Writes an entry. -/
def setAt? {β : Type} (entries : Array β) (i : Nat) (value : β) : Option (Array β) :=
  if h : i < entries.size then some (entries.set i value) else none

theorem setAt?_ofFn {β : Type} {n : Nat} {f : Fin n → β} (i : Fin n) (value : β) :
    setAt? (.ofFn f) i value = some (.ofFn (Function.update f i value)) := by
  have hlt : i.val < (Array.ofFn f).size := by
    rw [Array.size_ofFn]
    exact i.2
  rw [setAt?, dif_pos hlt, Option.some.injEq]
  apply Array.ext
  · simp
  · intro j _ hj
    simp only [Array.size_ofFn] at hj
    simp only [Array.getElem_set, Array.getElem_ofFn, Function.update_apply, Fin.ext_iff]
    simp only [eq_comm]

/-- A table in one array, row after row. -/
structure FlatTable (β : Type) where
  width : Nat
  height : Nat
  cells : Array β
deriving DecidableEq

namespace FlatTable

variable {β : Type} {t : FlatTable β} {f g : Nat → Nat → β} {height width row column : Nat}

/-! ## Access -/

/-- The table without rows. -/
def empty (width : Nat) : FlatTable β := ⟨width, 0, #[]⟩

/-- The table with the same value everywhere. -/
def filled (height width : Nat) (fill : β) : FlatTable β :=
  ⟨width, height, .replicate (height * width) fill⟩

/-- Adds a row of one value at the bottom. -/
def push (t : FlatTable β) (fill : β) : FlatTable β :=
  { t with height := t.height + 1, cells := t.cells ++ Array.replicate t.width fill }

/-- Reads a cell; the column is checked against the width, the index against the array. -/
def get? (t : FlatTable β) (row column : Nat) : Option β :=
  if column < t.width then t.cells[row * t.width + column]? else none

/-- Writes a cell; the column is checked against the width, the index against the array. -/
def set? (t : FlatTable β) (row column : Nat) (value : β) : Option (FlatTable β) :=
  if column < t.width then
    if h : row * t.width + column < t.cells.size then
      some { t with cells := t.cells.set (row * t.width + column) value }
    else none
  else none

/-- Reads the cells between two multiples of the width. -/
def row? (t : FlatTable β) (row : Nat) : Option (List β) :=
  if (row + 1) * t.width ≤ t.cells.size then
    some ((t.cells.toList.drop (row * t.width)).take t.width)
  else none

/-- Writes the first cells of a row in turn, each with a value that is looked up when its turn
comes. -/
def writeRow? (t : FlatTable β) (row columns : Nat) (value? : Nat → Option β) :
    Option (FlatTable β) :=
  (List.range columns).foldlM
    (fun t column => do
      let value ← value? column
      t.set? row column value)
    t

/-- Adds row after row at the bottom, each of one value first, and then written. -/
def pushRows? (t : FlatTable β) (rows columns : Nat) (fill : β)
    (value? : Nat → Nat → Option β) : Option (FlatTable β) :=
  (List.range rows).foldlM
    (fun t row => (t.push fill).writeRow? t.height columns (value? row)) t

/-! ## The table of a function -/

/-- The table of the values of a function. -/
def ofFn (height width : Nat) (f : Nat → Nat → β) : FlatTable β :=
  ⟨width, height, .ofFn fun i : Fin (height * width) => f (i / width) (i % width)⟩

theorem ofFn_congr (h : ∀ row < height, ∀ column < width, f row column = g row column) :
    ofFn height width f = ofFn height width g := by
  have hcells : (fun i : Fin (height * width) => f (i / width) (i % width)) =
      fun i : Fin (height * width) => g (i / width) (i % width) := by
    funext i
    exact h _ (Table.rowOf i).2 _ (Table.columnOf i).2
  rw [ofFn, ofFn, hcells]

theorem div_mod_eq_iff {i : Nat} (hcolumn : column < width) :
    (i / width = row ∧ i % width = column) ↔ i = row * width + column := by
  constructor
  · rintro ⟨rfl, rfl⟩
    exact (Nat.div_add_mod' i width).symm
  · rintro rfl
    have hpos : 0 < width := Nat.lt_of_le_of_lt (Nat.zero_le _) hcolumn
    rw [Nat.mul_comm row width, Nat.mul_add_div hpos, Nat.mul_add_mod, Nat.div_eq_of_lt hcolumn,
      Nat.mod_eq_of_lt hcolumn]
    exact ⟨Nat.add_zero row, rfl⟩

/-- Writing a cell changes the function there. -/
theorem set?_ofFn {value : β} (hrow : row < height) (hcolumn : column < width) :
    (ofFn height width f).set? row column value =
      some (ofFn height width fun r c => if r = row ∧ c = column then value else f r c) := by
  have hsize : row * (ofFn height width f).width + column < (ofFn height width f).cells.size := by
    simpa [ofFn] using Table.index_lt hrow hcolumn
  have hwidth : column < (ofFn height width f).width := hcolumn
  rw [set?, if_pos hwidth, dif_pos hsize]
  simp only [ofFn, Option.some.injEq, mk.injEq, true_and]
  apply Array.ext
  · simp
  · intro i hi _
    simp only [Array.getElem_set, Array.getElem_ofFn, div_mod_eq_iff hcolumn]
    simp only [eq_comm]

theorem push_ofFn {fill : β} :
    (ofFn height width f).push fill =
      ofFn (height + 1) width fun r c => if r < height then f r c else fill := by
  simp only [push, ofFn, mk.injEq, true_and]
  apply Array.ext
  · simp [Nat.succ_mul]
  · intro i hi hi'
    have hdiv : i / width < height ↔ i < height * width := by
      simp only [Array.size_ofFn] at hi'
      exact Nat.div_lt_iff_lt_mul (Table.width_pos_of_index hi')
    simp only [Array.getElem_append, Array.getElem_ofFn, Array.getElem_replicate, Array.size_ofFn,
      dite_eq_ite, hdiv]

theorem filled_eq_ofFn {fill : β} :
    filled height width fill = ofFn height width fun _ _ => fill := by
  simp only [filled, ofFn, mk.injEq, true_and]
  apply Array.ext <;> simp

/-- Writing a row replaces it. -/
theorem writeRow?_ofFn {value? : Nat → Option β} {value : Nat → β} (hrow : row < height)
    (hvalue : ∀ column < width, value? column = some (value column)) :
    (ofFn height width f).writeRow? row width value? =
      some (ofFn height width fun r c => if r = row then value c else f r c) := by
  -- after some columns the row has its new values up to there
  have hloop := foldlM_range (m := Option) (n := width)
    (f := fun t column => value? column >>= t.set? row column)
    (s := fun k => ofFn height width fun r c => if r = row ∧ c < k then value c else f r c)
    (fun k hk => by
      rw [hvalue k hk, Option.bind_eq_bind, Option.bind_some, set?_ofFn hrow hk]
      refine congrArg some (ofFn_congr fun r _ c _ => ?_)
      grind)
  simp only [Nat.not_lt_zero, and_false, if_false] at hloop
  refine hloop.trans (congrArg some (ofFn_congr fun r _ c hc => ?_))
  simp [hc]

theorem empty_eq_ofFn : empty width = ofFn 0 width f := by
  simp only [empty, ofFn, mk.injEq, true_and]
  apply Array.ext <;> simp

/-- Rows added to nothing are the table of their values. -/
theorem pushRows?_empty {fill : β} {value? : Nat → Nat → Option β} {value : Nat → Nat → β}
    (hvalue : ∀ row < height, ∀ column < width, value? row column = some (value row column)) :
    (empty width).pushRows? height width fill value? = some (ofFn height width value) := by
  rw [pushRows?, empty_eq_ofFn]
  refine foldlM_range (m := Option) (s := fun k => ofFn k width value) ?_
  intro k hk
  have hrow := writeRow?_ofFn (Nat.lt_succ_self k) (hvalue k hk)
    (f := fun row column => if row < k then value row column else fill)
  rw [push_ofFn]
  refine hrow.trans (congrArg some (ofFn_congr ?_))
  intro row hrow column _
  by_cases hlast : row = k
  · rw [if_pos hlast, hlast]
  · rw [if_neg hlast, if_pos (by omega)]

end FlatTable

/-! ## Tables of the library -/

namespace Table

variable {height width : Nat} {β γ : Type} {t : Table height width β} {view : β → γ}

/-- A table as a flat one, with its cells seen through `view`. -/
def flat (view : β → γ) (t : Table height width β) : FlatTable γ :=
  ⟨width, height, t.cells.toArray.map view⟩

theorem flat_eq_ofFn {f : Nat → Nat → γ}
    (h : ∀ (row : Fin height) (column : Fin width), f row column = view (t.get row column)) :
    t.flat view = .ofFn height width f := by
  simp only [flat, FlatTable.ofFn, FlatTable.mk.injEq, true_and]
  apply Array.ext
  · simp
  · intro i hi hi'
    simp only [Array.size_ofFn] at hi'
    have hcell := h (rowOf ⟨i, hi'⟩) (columnOf ⟨i, hi'⟩)
    simp only [get, rowOf, columnOf, Nat.div_add_mod'] at hcell
    simp only [Array.getElem_map, Vector.getElem_toArray, Array.getElem_ofFn, hcell]

theorem flat_ofFn {f : Nat → Nat → γ} {value : Fin height → Fin width → β}
    (h : ∀ (row : Fin height) (column : Fin width), f row column = view (value row column)) :
    (ofFn value).flat view = .ofFn height width f :=
  flat_eq_ofFn fun row column => by rw [get_ofFn, h]

theorem get?_flat (view : β → γ) (t : Table height width β) (row : Fin height)
    (column : Fin width) :
    (t.flat view).get? row column = some (view (t.get row column)) := by
  have hindex := index_lt row.2 column.2
  simp [FlatTable.get?, flat, get, hindex]

theorem set?_flat (view : β → γ) (t : Table height width β) (row : Fin height)
    (column : Fin width) (value : β) :
    (t.flat view).set? row column (view value) = some ((t.set row column value).flat view) := by
  have hindex := index_lt row.2 column.2
  simp [FlatTable.set?, flat, set, hindex]

theorem push_flat (view : β → γ) (t : Table height width β) (fill : β) :
    (t.flat view).push (view fill) = (t.push fill).flat view := by
  simp [FlatTable.push, flat, push]

theorem flat_filled (fill : β) :
    (filled height width fill).flat view = .filled height width (view fill) := by
  simp [FlatTable.filled, flat, filled]

theorem flat_empty : (empty width : Table 0 width β).flat view = .empty width := by
  simp [FlatTable.empty, flat, empty]

theorem size_cells_flat (view : β → γ) (t : Table height width β) :
    (t.flat view).cells.size = height * width := by
  simp [flat]

theorem row?_flat_eq_map (view : β → γ) (t : Table height width β) (row : Nat) :
    (t.flat view).row? row = (t.row? row).map (List.map view) := by
  have hwidth : (t.flat view).width = width := rfl
  have hcells : (t.flat view).cells.toList = t.cells.toList.map view := Array.toList_map
  rw [FlatTable.row?, row?, size_cells_flat, hwidth, hcells]
  split
  · rw [Option.map_some, List.map_take, List.map_drop]
  · rfl

theorem row?_flat (row : Fin height) : (t.flat view).row? row = some ((t.row row).map view) := by
  rw [row?_flat_eq_map, row?_eq_some, Option.map_some]

end Table

end LanguageTheory
