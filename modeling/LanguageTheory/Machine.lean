/-!
# Sizes on a machine

A machine counts up to a largest number, and its arrays have at most so many cells. A call that asks
for more ends in neither a fault nor a value. Sizes are asked for where a caller gives them as
numbers; words, sets and tables that are there already are not measured.
-/

namespace LanguageTheory

/-- What a call ends in: `none` for an index out of range or a size that is too large, else a fault
or a value. -/
abbrev Checked (ε β : Type) := ExceptT ε Option β

/-- The largest number, and the most cells of an array. Addresses are numbers, and a cell takes at
least two of them. -/
structure Machine where
  maxNumber : Nat
  maxCells : Nat
  cells_le : maxCells + maxCells ≤ maxNumber

namespace Machine

/-- Numbers of 64 bits, and cells of 16 bytes in half of the addresses. -/
def bits64 : Machine := ⟨18446744073709551615, 576460752303423487, by decide⟩

variable (m : Machine)

/-- Asks for a number. -/
def represent (n : Nat) : Option Unit := if n ≤ m.maxNumber then some () else none

/-- Asks for an array of so many cells. -/
def allocate (size : Nat) : Option Unit := if size ≤ m.maxCells then some () else none

variable {m} {n size : Nat}

theorem represent_of_le (h : n ≤ m.maxNumber) : m.represent n = some () := if_pos h

theorem represent_of_lt (h : m.maxNumber < n) : m.represent n = none := if_neg (Nat.not_le.mpr h)

theorem allocate_of_le (h : size ≤ m.maxCells) : m.allocate size = some () := if_pos h

theorem allocate_of_lt (h : m.maxCells < size) : m.allocate size = none := if_neg (Nat.not_le.mpr h)

end Machine

end LanguageTheory
