/-!
# Runs of characters

Properties of characters are tables of runs of code points, every code point of a run or every
second one. A table is read in two ways, as a test and as a listing, and both agree (`mem_chars`).
-/

namespace LanguageTheory

/-- The code points `first`, `first + step`, …, up to `last`. -/
structure CharRange where
  first : Nat
  last : Nat
  step : Nat

namespace CharRange

/-- Whether a code point is in the run. -/
def contains (r : CharRange) (code : Nat) : Bool :=
  r.first ≤ code && code ≤ r.last && (code - r.first) % r.step == 0

/-- The code points of the run in increasing order. -/
def codes (r : CharRange) : List Nat :=
  (List.range ((r.last - r.first) / r.step + 1)).map fun i => r.first + i * r.step

/-- Whether a character is in one of the runs. -/
def anyContains (table : List CharRange) (c : Char) : Bool := table.any (·.contains c.toNat)

/-- The characters of the runs, in the order of the table. -/
def chars (table : List CharRange) : List Char := table.flatMap fun r => r.codes.map Char.ofNat

theorem mem_codes {r : CharRange} (hstep : 0 < r.step) (hrun : r.first ≤ r.last) {code : Nat} :
    code ∈ r.codes ↔ r.contains code := by
  simp only [codes, List.mem_map, List.mem_range, contains, Bool.and_eq_true, decide_eq_true_eq,
    beq_iff_eq]
  constructor
  · rintro ⟨i, hi, rfl⟩
    have hle : i * r.step ≤ r.last - r.first :=
      (Nat.le_div_iff_mul_le hstep).mp (Nat.lt_succ_iff.mp hi)
    refine ⟨⟨Nat.le_add_right _ _, by omega⟩, ?_⟩
    rw [Nat.add_sub_cancel_left, Nat.mul_mod_left]
  · rintro ⟨⟨hfirst, hlast⟩, hmod⟩
    refine ⟨(code - r.first) / r.step, ?_, ?_⟩
    · exact Nat.lt_succ_iff.mpr (Nat.div_le_div_right (by omega))
    · rw [Nat.div_mul_cancel (Nat.dvd_of_mod_eq_zero hmod)]
      omega

/-- Every run is a proper one, and holds code points of characters only. -/
def Proper (r : CharRange) : Prop :=
  0 < r.step ∧ r.first ≤ r.last ∧ (r.last < 0xD800 ∨ 0xDFFF < r.first ∧ r.last < 0x110000)

instance (r : CharRange) : Decidable r.Proper := by unfold Proper; infer_instance

theorem toNat_ofNat {r : CharRange} (hr : r.Proper) {code : Nat} (hcode : code ∈ r.codes) :
    (Char.ofNat code).toNat = code := by
  obtain ⟨hstep, hrun, hvalid⟩ := hr
  have hin := (mem_codes hstep hrun).mp hcode
  simp only [contains, Bool.and_eq_true, decide_eq_true_eq] at hin
  have hscalar : code.isValidChar := by
    unfold Nat.isValidChar
    omega
  rw [Char.ofNat, dif_pos hscalar]
  rfl

/-- Listing and test agree. -/
theorem mem_chars {table : List CharRange} (htable : ∀ r ∈ table, r.Proper) {c : Char} :
    c ∈ chars table ↔ anyContains table c := by
  simp only [chars, anyContains, List.mem_flatMap, List.mem_map, List.any_eq_true]
  constructor
  · rintro ⟨r, hr, code, hcode, rfl⟩
    obtain ⟨hstep, hrun, _⟩ := htable r hr
    refine ⟨r, hr, ?_⟩
    rw [toNat_ofNat (htable r hr) hcode]
    exact (mem_codes hstep hrun).mp hcode
  · rintro ⟨r, hr, hin⟩
    obtain ⟨hstep, hrun, _⟩ := htable r hr
    exact ⟨r, hr, c.toNat, (mem_codes hstep hrun).mpr hin, Char.ofNat_toNat c⟩

end CharRange

end LanguageTheory
