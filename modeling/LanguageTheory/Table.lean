/-!
# Row-major tables

A table of `height` rows and `width` columns keeps its cells in one vector, row after row. Distinct
positions are distinct cells, so writing one leaves all others as they are (`get_set_ne`), and
growing by a row keeps the rows above it (`get_push_lt`).
-/

universe u v

namespace LanguageTheory

/-- `height` rows of `width` cells each, stored row after row. -/
structure Table (height width : Nat) (α : Type u) where
  cells : Vector α (height * width)
deriving DecidableEq

namespace Table

variable {height width : Nat} {α : Type u} {β : Type v}

/-! ## Positions -/

theorem index_lt {row column : Nat} (hrow : row < height) (hcolumn : column < width) :
    row * width + column < height * width :=
  calc row * width + column < row * width + width := Nat.add_lt_add_left hcolumn _
    _ = (row + 1) * width := (Nat.succ_mul row width).symm
    _ ≤ height * width := Nat.mul_le_mul_right _ hrow

theorem width_pos_of_index {i : Nat} (hi : i < height * width) : 0 < width := by
  rcases Nat.eq_zero_or_pos width with rfl | hpos
  · simp at hi
  · exact hpos

/-- The row of a cell. -/
def rowOf (i : Fin (height * width)) : Fin height :=
  ⟨i / width, (Nat.div_lt_iff_lt_mul (width_pos_of_index i.2)).mpr i.2⟩

/-- The column of a cell. -/
def columnOf (i : Fin (height * width)) : Fin width :=
  ⟨i % width, Nat.mod_lt _ (width_pos_of_index i.2)⟩

/-- A position determines its row and column. -/
theorem index_inj {row row' column column' : Nat} (hcolumn : column < width)
    (hcolumn' : column' < width) (h : row * width + column = row' * width + column') :
    row = row' ∧ column = column' := by
  have hpos : 0 < width := Nat.lt_of_le_of_lt (Nat.zero_le _) hcolumn
  have hdiv := congrArg (· / width) h
  have hmod := congrArg (· % width) h
  simp only [Nat.mul_comm _ width, Nat.mul_add_div hpos, Nat.div_eq_of_lt hcolumn,
    Nat.div_eq_of_lt hcolumn', Nat.add_zero] at hdiv
  simp only [Nat.mul_comm _ width, Nat.mul_add_mod, Nat.mod_eq_of_lt hcolumn,
    Nat.mod_eq_of_lt hcolumn'] at hmod
  exact ⟨hdiv, hmod⟩

/-! ## Reading -/

/-- The cell in a row and column. -/
def get (t : Table height width α) (row : Fin height) (column : Fin width) : α :=
  have hindex := index_lt row.2 column.2
  t.cells[row * width + column]

/-- The cell at any pair of numbers, if there is such a row and column. -/
def get? (t : Table height width α) (row column : Nat) : Option α :=
  if h : row < height ∧ column < width then some (t.get ⟨row, h.1⟩ ⟨column, h.2⟩) else none

/-- The cells of a row, from left to right. -/
def row (t : Table height width α) (row : Fin height) : List α :=
  (List.finRange width).map (t.get row)

/-- The cells between two multiples of the width, if the table reaches that far. -/
def row? (t : Table height width α) (row : Nat) : Option (List α) :=
  if (row + 1) * width ≤ height * width then
    some ((t.cells.toList.drop (row * width)).take width)
  else none

/-- All rows, from top to bottom. -/
def rows (t : Table height width α) : List (List α) := (List.finRange height).map t.row

/-! ## Building -/

/-- The table of the values of a function. -/
def ofFn (f : Fin height → Fin width → α) : Table height width α :=
  ⟨Vector.ofFn fun i => f (rowOf i) (columnOf i)⟩

/-- The table with the same value everywhere. -/
def filled (height width : Nat) (fill : α) : Table height width α :=
  ⟨Vector.replicate _ fill⟩

/-- The table without rows. -/
def empty (width : Nat) : Table 0 width α := ⟨#v[].cast (Nat.zero_mul width).symm⟩

/-- Writes one cell. -/
def set (t : Table height width α) (row : Fin height) (column : Fin width) (value : α) :
    Table height width α :=
  ⟨t.cells.set (row * width + column) value (index_lt row.2 column.2)⟩

/-- Writes the cell at any pair of numbers, if there is such a row and column. -/
def set? (t : Table height width α) (row column : Nat) (value : α) :
    Option (Table height width α) :=
  if h : row < height ∧ column < width then some (t.set ⟨row, h.1⟩ ⟨column, h.2⟩ value) else none

/-- Adds a row of one value at the bottom. -/
def push (t : Table height width α) (fill : α) : Table (height + 1) width α :=
  ⟨(t.cells ++ Vector.replicate width fill).cast (Nat.succ_mul height width).symm⟩

/-! ## What reading gives -/

variable {t : Table height width α} {row row' : Fin height} {column column' : Fin width}

@[simp] theorem get_ofFn {f : Fin height → Fin width → α} :
    (ofFn f).get row column = f row column := by
  have hpos : 0 < width := Nat.lt_of_le_of_lt (Nat.zero_le _) column.2
  have hrow : rowOf ⟨row * width + column, index_lt row.2 column.2⟩ = row := by
    apply Fin.ext
    simp [rowOf, Nat.mul_comm _ width, Nat.mul_add_div hpos, Nat.div_eq_of_lt column.2]
  have hcolumn : columnOf ⟨row * width + column, index_lt row.2 column.2⟩ = column := by
    apply Fin.ext
    simp [columnOf, Nat.mul_comm _ width, Nat.mod_eq_of_lt column.2]
  simp only [get, ofFn, Vector.getElem_ofFn, hrow, hcolumn]

@[simp] theorem get_filled {fill : α} : (filled height width fill).get row column = fill := by
  simp [get, filled]

/-- A written cell holds what was written. -/
@[simp] theorem get_set_eq {value : α} : (t.set row column value).get row column = value := by
  simp [get, set]

/-- Every other cell stays. -/
theorem get_set_ne {value : α} (h : ¬ (row = row' ∧ column = column')) :
    (t.set row column value).get row' column' = t.get row' column' := by
  refine Vector.getElem_set_ne (index_lt row.2 column.2) (index_lt row'.2 column'.2) fun heq => h ?_
  obtain ⟨hrow, hcolumn⟩ := index_inj column.2 column'.2 heq
  exact ⟨Fin.ext hrow, Fin.ext hcolumn⟩

/-- Growing keeps the rows that were there. -/
theorem get_push_lt {fill : α} :
    (t.push fill).get row.castSucc column = t.get row column := by
  have hlt := index_lt row.2 column.2
  simp [get, push, hlt]

/-- The row added holds the one value. -/
theorem get_push_last {fill : α} : (t.push fill).get (Fin.last height) column = fill := by
  simp [get, push]

/-- A table is determined by its cells. -/
theorem ext {t t' : Table height width α} (h : ∀ row column, t.get row column = t'.get row column) :
    t = t' := by
  cases t with | mk cells => cases t' with | mk cells' =>
  congr 1
  apply Vector.ext
  intro i hi
  have hpos := width_pos_of_index hi
  have hcell := h (rowOf ⟨i, hi⟩) (columnOf ⟨i, hi⟩)
  simpa only [get, rowOf, columnOf, Nat.div_add_mod'] using hcell

/-- Reading a row between multiples of the width gives its cells in order. -/
theorem row?_eq_some (t : Table height width α) (row : Fin height) :
    t.row? row = some (t.row row) := by
  have hle : ((row : Nat) + 1) * width ≤ height * width := Nat.mul_le_mul_right _ row.2
  rw [row?, if_pos hle, Option.some.injEq]
  apply List.ext_getElem
  · simp only [List.length_take, List.length_drop, Vector.length_toList, Table.row, List.length_map,
      List.length_finRange]
    rw [Nat.succ_mul] at hle
    omega
  · intro i hi hi'
    simp [Table.row, get]

end Table

end LanguageTheory
