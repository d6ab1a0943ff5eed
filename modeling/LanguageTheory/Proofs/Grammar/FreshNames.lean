import LanguageTheory.Grammar.FreshNames
import Mathlib.Data.List.Chain

/-!
# Fresh names in order

The upper-case characters are listed in increasing order, each once, and so are those that a grammar
leaves unused.
-/

namespace LanguageTheory

theorem char_lt_iff {c d : Char} : c < d ↔ c.toNat < d.toNat := Iff.rfl

namespace CharRange

theorem pairwise_codes {r : CharRange} (hstep : 0 < r.step) : r.codes.Pairwise (· < ·) := by
  rw [codes, List.pairwise_map]
  refine List.pairwise_lt_range.imp ?_
  intro i j hij
  exact Nat.add_lt_add_left (Nat.mul_lt_mul_of_pos_right hij hstep) _

theorem lt_of_code_lt {r s : CharRange} (hr : r.Proper) (hs : s.Proper) {i j : Nat}
    (hi : i ∈ r.codes) (hj : j ∈ s.codes) (hij : i < j) : Char.ofNat i < Char.ofNat j := by
  rwa [char_lt_iff, toNat_ofNat hr hi, toNat_ofNat hs hj]

/-- One run ends before another one, which is not empty, begins. -/
def Before (r s : CharRange) : Prop := r.last < s.first ∧ s.first ≤ s.last

instance : DecidableRel Before := fun r s =>
  inferInstanceAs (Decidable (r.last < s.first ∧ s.first ≤ s.last))

instance : Trans Before Before Before where
  trans hrs hst := ⟨Nat.lt_of_lt_of_le (Nat.lt_of_lt_of_le hrs.1 hrs.2) (Nat.le_of_lt hst.1), hst.2⟩

/-- Runs that follow one another list their characters in increasing order. -/
theorem pairwise_chars {table : List CharRange} (htable : ∀ r ∈ table, r.Proper)
    (horder : table.IsChain Before) : (chars table).Pairwise (· < ·) := by
  rw [chars, List.pairwise_flatMap]
  constructor
  · intro r hr
    have hproper := htable r hr
    rw [List.pairwise_map]
    refine (pairwise_codes hproper.1).imp_of_mem ?_
    intro i j hi hj hij
    exact lt_of_code_lt hproper hproper hi hj hij
  · refine horder.pairwise.imp_of_mem ?_
    rintro r s hr hs ⟨hlast, _⟩ c hc d hd
    obtain ⟨i, hi, rfl⟩ := List.mem_map.mp hc
    obtain ⟨j, hj, rfl⟩ := List.mem_map.mp hd
    obtain ⟨hrstep, hrrun, _⟩ := htable r hr
    obtain ⟨hsstep, hsrun, _⟩ := htable s hs
    have hile := (mem_codes hrstep hrrun).mp hi
    have hjge := (mem_codes hsstep hsrun).mp hj
    simp only [contains, Bool.and_eq_true, decide_eq_true_eq] at hile hjge
    apply lt_of_code_lt (htable r hr) (htable s hs) hi hj
    omega

end CharRange

theorem Uppercase.pairwise_all : Uppercase.all.Pairwise (· < ·) :=
  CharRange.pairwise_chars (by decide +kernel) (by decide +kernel)

namespace Grammar

theorem pairwise_unusedNames (g : Grammar) : g.unusedNames.Pairwise (· < ·) :=
  Uppercase.pairwise_all.filter _

theorem nodup_unusedNames (g : Grammar) : g.unusedNames.Nodup := by
  refine g.pairwise_unusedNames.imp ?_
  rintro c d hlt rfl
  exact absurd hlt (Char.lt_irrefl c)

end Grammar

end LanguageTheory
