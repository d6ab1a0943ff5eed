import LanguageTheory.Proofs.Flat.Table

/-!
# Tables as arrays of rows

A table in one array begins without rows or with the same value everywhere, grows by rows at the
bottom, and is written cell by cell. After any number of such calls it is a table of the library
(`Made.exists_table`). So it can be read and written at its own rows and columns and nowhere else,
and no two of its cells are one (`rows_exact`). Numbers are exact: an index is never cut off.
-/

namespace LanguageTheory

/-! ## Cells of the library's tables -/

namespace Table

variable {height width : Nat} {β γ : Type} {t : Table height width β} {row column : Nat}
  {value : β} {view : β → γ}

theorem get?_of_lt (hrow : row < height) (hcolumn : column < width) :
    t.get? row column = some (t.get ⟨row, hrow⟩ ⟨column, hcolumn⟩) :=
  dif_pos ⟨hrow, hcolumn⟩

theorem get?_eq_none (h : ¬ (row < height ∧ column < width)) : t.get? row column = none :=
  dif_neg h

theorem set?_of_lt (hrow : row < height) (hcolumn : column < width) :
    t.set? row column value = some (t.set ⟨row, hrow⟩ ⟨column, hcolumn⟩ value) :=
  dif_pos ⟨hrow, hcolumn⟩

theorem set?_eq_none (h : ¬ (row < height ∧ column < width)) : t.set? row column value = none :=
  dif_neg h

theorem isSome_get?_iff : (t.get? row column).isSome ↔ row < height ∧ column < width :=
  Option.isSome_dite

theorem isSome_set?_iff : (t.set? row column value).isSome ↔ row < height ∧ column < width :=
  Option.isSome_dite

/-- A cell holds what was written, and every other cell what it held before. -/
theorem get?_of_set?_eq_some {u : Table height width β} (h : t.set? row column value = some u)
    (row' column' : Nat) : u.get? row' column' =
      if row' = row ∧ column' = column then some value else t.get? row' column' := by
  have hcell : row < height ∧ column < width := isSome_set?_iff.mp (Option.isSome_of_eq_some h)
  rw [set?_of_lt hcell.1 hcell.2, Option.some.injEq] at h
  subst h
  by_cases hcell' : row' < height ∧ column' < width
  · rw [get?_of_lt hcell'.1 hcell'.2]
    by_cases hsame : row' = row ∧ column' = column
    · obtain ⟨rfl, rfl⟩ := hsame
      rw [if_pos ⟨rfl, rfl⟩, get_set_eq]
    · rw [if_neg hsame, get?_of_lt hcell'.1 hcell'.2, get_set_ne]
      simpa [eq_comm] using hsame
  · have hother : ¬ (row' = row ∧ column' = column) := by
      rintro ⟨rfl, rfl⟩
      exact hcell' hcell
    rw [if_neg hother, get?_eq_none hcell', get?_eq_none hcell']

/-- The row added holds the one value, and every other cell what it held before. -/
theorem get?_push (t : Table height width β) (fill : β) (row column : Nat) :
    (t.push fill).get? row column =
      if row = height ∧ column < width then some fill else t.get? row column := by
  by_cases hcolumn : column < width
  · -- a row that was there, the row added, or no row at all
    rcases Nat.lt_trichotomy row height with hlt | rfl | hgt
    · have hold : (t.push fill).get (Fin.castSucc ⟨row, hlt⟩) ⟨column, hcolumn⟩ =
          t.get ⟨row, hlt⟩ ⟨column, hcolumn⟩ := get_push_lt
      rw [get?_of_lt (Nat.lt_succ_of_lt hlt) hcolumn, if_neg fun h => Nat.ne_of_lt hlt h.1,
        get?_of_lt hlt hcolumn]
      exact congrArg some hold
    · rw [get?_of_lt (Nat.lt_succ_self row) hcolumn, if_pos ⟨rfl, hcolumn⟩]
      exact congrArg some get_push_last
    · rw [get?_eq_none fun h => by omega, if_neg fun h => by omega, get?_eq_none fun h => by omega]
  · rw [get?_eq_none fun h => hcolumn h.2, if_neg fun h => hcolumn h.2,
      get?_eq_none fun h => hcolumn h.2]

/-- The cells of a row stand in it from left to right. -/
theorem map_some_row (t : Table height width β) (row : Fin height) :
    (t.row row).map some = (List.range width).map (t.get? row) := by
  rw [Table.row, List.map_map, ← List.map_coe_finRange_eq_range, List.map_map]
  apply List.map_congr_left
  intro column _
  exact (get?_of_lt row.2 column.2).symm

/-! ### In one array -/

/-- An index is one of a cell only if the row is one of the table. -/
theorem index_lt_iff (hcolumn : column < width) :
    row * width + column < height * width ↔ row < height := by
  refine ⟨?_, fun hrow => index_lt hrow hcolumn⟩
  intro hindex
  by_contra hrow
  have hle : height * width ≤ row * width := Nat.mul_le_mul_right width (Nat.not_lt.mp hrow)
  omega

/-- The index of a cell that the table does not have, in a column that it has, is behind all cells. -/
theorem size_cells_flat_le (hcell : ¬ (row < height ∧ column < width)) (hcolumn : column < width) :
    (t.flat view).cells.size ≤ row * width + column := by
  rw [size_cells_flat, ← Nat.not_lt, index_lt_iff hcolumn]
  exact fun hrow => hcell ⟨hrow, hcolumn⟩

/-- Cells that the table does not have are not in the array either. -/
theorem get?_flat_eq_map (view : β → γ) (t : Table height width β) (row column : Nat) :
    (t.flat view).get? row column = (t.get? row column).map view := by
  by_cases hcell : row < height ∧ column < width
  · rw [get?_of_lt hcell.1 hcell.2]
    exact get?_flat view t ⟨row, hcell.1⟩ ⟨column, hcell.2⟩
  · rw [get?_eq_none hcell]
    by_cases hcolumn : column < width
    · exact (if_pos hcolumn).trans (Array.getElem?_eq_none (size_cells_flat_le hcell hcolumn))
    · exact if_neg hcolumn

theorem set?_flat_eq_map (view : β → γ) (t : Table height width β) (row column : Nat)
    (value : β) :
    (t.flat view).set? row column (view value) = (t.set? row column value).map (flat view) := by
  by_cases hcell : row < height ∧ column < width
  · rw [set?_of_lt hcell.1 hcell.2]
    exact set?_flat view t ⟨row, hcell.1⟩ ⟨column, hcell.2⟩ value
  · rw [set?_eq_none hcell]
    by_cases hcolumn : column < width
    · have hindex : ¬ row * (t.flat view).width + column < (t.flat view).cells.size :=
        Nat.not_lt.mpr (size_cells_flat_le hcell hcolumn)
      exact (if_pos hcolumn).trans (dif_neg hindex)
    · exact if_neg hcolumn

/-- With columns, only the rows of the table can be read. -/
theorem isSome_row?_iff (hwidth : 0 < width) : (t.row? row).isSome ↔ row < height := by
  have hrow : (row + 1) * width ≤ height * width ↔ row < height :=
    Nat.mul_le_mul_right_iff hwidth
  rw [row?, ← hrow]
  exact Option.isSome_ite

end Table

/-! ## Calls -/

namespace FlatTable

variable {β : Type} {t : FlatTable β}

/-- Adds a row of one value at the bottom, and tells its number. -/
def grow (t : FlatTable β) (fill : β) : Nat × FlatTable β :=
  let grown := t.push fill
  (grown.height - 1, grown)

/-- What calls make of a table that begins without rows or with the same value everywhere. -/
inductive Made : FlatTable β → Prop
  | empty (width : Nat) : Made (.empty width)
  | filled (height width : Nat) (fill : β) : Made (.filled height width fill)
  | grow {t : FlatTable β} (fill : β) : Made t → Made (t.grow fill).2
  | set {t u : FlatTable β} {row column : Nat} {value : β} :
      Made t → t.set? row column value = some u → Made u

/-- Calls keep to as many cells as rows and columns demand. -/
theorem Made.exists_table (h : Made t) :
    ∃ (height width : Nat) (table : Table height width β), table.flat id = t := by
  induction h with
  | empty width => exact ⟨0, width, .empty width, Table.flat_empty⟩
  | filled height width fill =>
      exact ⟨height, width, .filled height width fill, Table.flat_filled fill⟩
  | grow fill _ ih =>
      obtain ⟨height, width, table, rfl⟩ := ih
      exact ⟨height + 1, width, table.push fill, (Table.push_flat id table fill).symm⟩
  | @set _ u row column value _ hset ih =>
      obtain ⟨height, width, table, rfl⟩ := ih
      have hwritten := Table.set?_flat_eq_map id table row column value
      rw [id_eq, hset] at hwritten
      obtain ⟨written, _, hflat⟩ := Option.map_eq_some_iff.mp hwritten.symm
      exact ⟨height, width, written, hflat⟩

/-- A table as an array of rows: which cells it has, and what calls make of them. -/
structure IsArrayOfRows (t : FlatTable β) : Prop where
  /-- There is one cell for each row and column. -/
  size_cells : t.cells.size = t.height * t.width
  /-- Numbers that are computed to read a cell or a row are no greater than the number of cells. -/
  index_lt : ∀ row < t.height, (row + 1) * t.width ≤ t.cells.size ∧
    ∀ column < t.width, row * t.width + column < t.cells.size
  /-- These cells can be read, and nothing else. -/
  isSome_get?_iff : ∀ row column, (t.get? row column).isSome ↔ row < t.height ∧ column < t.width
  /-- These cells can be written, and nothing else. -/
  isSome_set?_iff : ∀ row column value,
    (t.set? row column value).isSome ↔ row < t.height ∧ column < t.width
  /-- A cell holds what was written, and every other cell what it held before. -/
  of_set? : ∀ row column value u, t.set? row column value = some u →
    u.height = t.height ∧ u.width = t.width ∧ ∀ row' column', u.get? row' column' =
      if row' = row ∧ column' = column then some value else t.get? row' column'
  /-- The row added is told by its number and holds the one value, and every other cell holds what
  it held before. -/
  of_grow : ∀ fill, (t.grow fill).1 = t.height ∧ (t.grow fill).2.height = t.height + 1 ∧
    (t.grow fill).2.width = t.width ∧ ∀ row column, (t.grow fill).2.get? row column =
      if row = t.height ∧ column < t.width then some fill else t.get? row column
  /-- A row lists its cells from left to right. -/
  row?_eq : ∀ row < t.height, ∃ cells, t.row? row = some cells ∧
    cells.map some = (List.range t.width).map (t.get? row)
  /-- With columns, no other row can be read. -/
  isSome_row?_iff : 0 < t.width → ∀ row, (t.row? row).isSome ↔ row < t.height

end FlatTable

namespace Table

variable {height width : Nat} {β : Type} (t : Table height width β)

theorem get?_flat_id (row column : Nat) : (t.flat id).get? row column = t.get? row column := by
  rw [get?_flat_eq_map, Option.map_id, id_eq]

theorem set?_flat_id (row column : Nat) (value : β) :
    (t.flat id).set? row column value = (t.set? row column value).map (flat id) :=
  set?_flat_eq_map id t row column value

theorem row?_flat_id (row : Nat) : (t.flat id).row? row = t.row? row := by
  rw [row?_flat_eq_map, List.map_id_fun, Option.map_id, id_eq]

theorem isArrayOfRows_flat : (t.flat id).IsArrayOfRows where
  size_cells := size_cells_flat id t
  index_lt row hrow := by
    rw [size_cells_flat]
    exact ⟨Nat.mul_le_mul_right width hrow, fun column => Table.index_lt hrow⟩
  isSome_get?_iff row column := by
    rw [get?_flat_id]
    exact Table.isSome_get?_iff
  isSome_set?_iff row column value := by
    rw [set?_flat_id, Option.isSome_map]
    exact Table.isSome_set?_iff
  of_set? row column value u hset := by
    rw [set?_flat_id] at hset
    obtain ⟨written, hwritten, rfl⟩ := Option.map_eq_some_iff.mp hset
    refine ⟨rfl, rfl, ?_⟩
    intro row' column'
    rw [get?_flat_id, get?_flat_id]
    exact get?_of_set?_eq_some hwritten row' column'
  of_grow fill := by
    refine ⟨rfl, rfl, rfl, ?_⟩
    intro row column
    have hgrown : ((t.flat id).grow fill).2 = (t.push fill).flat id := push_flat id t fill
    rw [hgrown, get?_flat_id, get?_flat_id]
    exact get?_push t fill row column
  row?_eq row hrow := by
    refine ⟨t.row ⟨row, hrow⟩, ?_, ?_⟩
    · rw [row?_flat_id]
      exact t.row?_eq_some ⟨row, hrow⟩
    · rw [map_some_row]
      apply List.map_congr_left
      intro column _
      exact (t.get?_flat_id row column).symm
  isSome_row?_iff hwidth row := by
    rw [row?_flat_id]
    exact Table.isSome_row?_iff hwidth

end Table

namespace FlatTable

variable {β : Type} {t : FlatTable β}

/-- Whatever calls have made it, a table is an array of rows, also where there are no columns. The
table of the library with the same cells is read, written and grown with the same outcomes. -/
theorem rows_exact (h : Made t) : IsArrayOfRows t ∧
    ∃ table : Table t.height t.width β, table.flat id = t ∧
      (∀ row column, table.get? row column = t.get? row column) ∧
      (∀ row column value, (table.set? row column value).map (Table.flat id) =
        t.set? row column value) ∧
      (∀ fill, (table.push fill).flat id = (t.grow fill).2) ∧
      ∀ row, table.row? row = t.row? row := by
  obtain ⟨height, width, table, rfl⟩ := h.exists_table
  refine ⟨table.isArrayOfRows_flat, table, rfl, ?_, ?_, ?_, ?_⟩
  · exact fun row column => (table.get?_flat_id row column).symm
  · exact fun row column value => (table.set?_flat_id row column value).symm
  · exact fun fill => (table.push_flat id fill).symm
  · exact fun row => (table.row?_flat_id row).symm

/-- Two rows of zeros with one cell written, and a third row, added and then written. -/
def threeRows : FlatTable Nat := ⟨2, 3, #[0, 5, 0, 0, 9, 7]⟩

theorem made_threeRows : Made threeRows := by
  have hfirst : (filled 2 2 0).set? 0 1 5 = some ⟨2, 2, #[0, 5, 0, 0]⟩ := by decide
  have hlast : (grow ⟨2, 2, #[0, 5, 0, 0]⟩ 7).2.set? 2 0 9 = some threeRows := by decide
  exact (((Made.filled 2 2 0).set hfirst).grow 7).set hlast

theorem rows_exact_threeRows :
    Made threeRows ∧ threeRows.IsArrayOfRows ∧ threeRows.row? 2 = some [9, 7] ∧
      ¬ (threeRows.set? 3 0 1).isSome ∧
      Made (.filled 3 0 'a') ∧ (filled 3 0 'a').IsArrayOfRows ∧
      (filled 3 0 'a').row? 2 = some [] := by
  obtain ⟨hrows, _⟩ := rows_exact made_threeRows
  obtain ⟨hnarrow, _⟩ := rows_exact (.filled 3 0 'a')
  refine ⟨made_threeRows, hrows, by decide, ?_, .filled 3 0 'a', hnarrow, ?_⟩
  · rw [hrows.isSome_set?_iff]
    decide
  · obtain ⟨cells, hcells, hlist⟩ := hnarrow.row?_eq 2 (by decide)
    have hnil : cells = [] := List.map_eq_nil_iff.mp hlist
    rw [hcells, hnil]

end FlatTable

end LanguageTheory
