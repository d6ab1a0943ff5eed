import LanguageTheory.Proofs.Grammar.Enumeration
import Mathlib.Data.List.Nodup

/-!
# Reversal

Reversed productions make the mirror image of every step, so the reversed grammar has a derivation of
the same length for every derivation (`derivesIn_reversed_iff`). The mirror image of a leftmost step
is a rightmost one, which enumeration never takes; but its words depend on the lengths of derivations
only, and so do the members of a grammar in normal form (`reversed_exact`).
-/

namespace LanguageTheory

@[simp] theorem Production.reversed_reversed (p : Production) : p.reversed.reversed = p := by
  simp only [Production.reversed, List.reverse_reverse]

@[simp] theorem Kind.reversed_reversed (kind : Kind) : kind.reversed.reversed = kind := by
  cases kind <;> rfl

namespace Grammar

variable {g : Grammar} {u v w : List Char} {p : Production} {n depth : Nat}

/-! ## Productions -/

theorem mem_productions_reversed_iff : p ∈ g.reversed.productions ↔ p.reversed ∈ g.productions := by
  have himage : p ∈ g.reversed.productions ↔ ∃ q ∈ g.productions, q.reversed = p :=
    SortedSet.mem_image
  rw [himage]
  constructor
  · rintro ⟨q, hq, rfl⟩
    rwa [Production.reversed_reversed]
  · intro hp
    exact ⟨p.reversed, hp, p.reversed_reversed⟩

theorem reversed_reversed (g : Grammar) : g.reversed.reversed = g := by
  have hproductions : g.reversed.reversed.productions = g.productions := by
    apply SortedSet.ext
    intro p
    rw [mem_productions_reversed_iff, mem_productions_reversed_iff, Production.reversed_reversed]
  exact ext rfl rfl hproductions rfl g.kind.reversed_reversed rfl

/-! ## Derivations -/

theorem Step.reversed (h : g.Step u v) : g.reversed.Step u.reverse v.reverse := by
  cases h with
  | @apply before after p hp =>
      have hmirror : p.reversed ∈ g.reversed.productions := by
        rwa [mem_productions_reversed_iff, Production.reversed_reversed]
      have hstep := Step.apply after.reverse before.reverse hmirror
      simpa [Production.reversed] using hstep

theorem DerivesIn.reversed (h : g.DerivesIn u n v) :
    g.reversed.DerivesIn u.reverse n v.reverse := by
  induction h with
  | refl => exact .refl
  | tail _ hstep ih => exact ih.tail hstep.reversed

/-- Mirror images have derivations of the same length. -/
theorem derivesIn_reversed_iff :
    g.reversed.DerivesIn u.reverse n v.reverse ↔ g.DerivesIn u n v := by
  constructor
  · intro h
    have hback := h.reversed
    rwa [reversed_reversed, List.reverse_reverse, List.reverse_reverse] at hback
  · exact DerivesIn.reversed

theorem derives_reversed_iff : g.reversed.Derives u.reverse v.reverse ↔ g.Derives u v :=
  exists_congr fun _ => derivesIn_reversed_iff

theorem isTerminal_reverse_iff : g.reversed.IsTerminal w.reverse ↔ g.IsTerminal w :=
  forall_congr' fun _ => imp_congr_left List.mem_reverse

theorem yields_reversed_iff : g.reversed.Yields u.reverse w.reverse ↔ g.Yields u w := by
  rw [yields_iff, yields_iff, isTerminal_reverse_iff, derives_reversed_iff]

theorem yieldsIn_reversed_iff : g.reversed.YieldsIn u.reverse n w.reverse ↔ g.YieldsIn u n w := by
  rw [yieldsIn_iff, yieldsIn_iff, isTerminal_reverse_iff, derivesIn_reversed_iff]

/-! ## Words within a depth -/

theorem reverse_mem_produce_reversed_iff :
    w.reverse ∈ g.reversed.produce depth ↔ w ∈ g.produce depth := by
  have hyields : ∀ k, g.reversed.YieldsIn [g.start] k w.reverse ↔ g.YieldsIn [g.start] k w :=
    fun k => yieldsIn_reversed_iff (u := [g.start])
  rw [mem_produce_iff, mem_produce_iff, List.reverse_eq_nil_iff]
  exact or_congr_left (exists_congr fun k => and_congr_right fun _ => hyields k)

/-- The words within a depth are the mirror images, in another order. -/
theorem perm_produce_reversed (g : Grammar) (depth : Nat) :
    (g.reversed.produce depth).Perm ((g.produce depth).map List.reverse) := by
  have hmirrored : ((g.produce depth).map List.reverse).Nodup :=
    List.Nodup.map List.reverse_injective (g.nodup_produce depth)
  apply (List.perm_ext_iff_of_nodup (g.reversed.nodup_produce depth) hmirrored).mpr
  intro w
  rw [← List.reverse_reverse w, reverse_mem_produce_reversed_iff,
    List.mem_map_of_injective List.reverse_injective]

/-! ## Normal form -/

theorem isNormal_reversed (hnormal : g.isNormal p) : g.reversed.isNormal p.reversed := by
  rw [isNormal_iff] at hnormal ⊢
  rcases hnormal with ⟨d, hd, hrhs⟩ | ⟨a, ha, b, hb, hrhs⟩
  · exact .inl ⟨d, hd, by rw [Production.reversed, hrhs, List.reverse_singleton]⟩
  · refine .inr ⟨b, hb, a, ha, ?_⟩
    rw [Production.reversed, hrhs]
    rfl

theorem isChomskyForm_reversed (hform : g.isChomskyForm) : g.reversed.isChomskyForm := by
  rw [isChomskyForm_iff] at hform ⊢
  intro p hp
  have hnormal := isNormal_reversed (hform _ (mem_productions_reversed_iff.mp hp))
  rwa [Production.reversed_reversed] at hnormal

theorem isChomskyForm_reversed_iff : g.reversed.isChomskyForm ↔ g.isChomskyForm := by
  constructor
  · intro hform
    have hback := isChomskyForm_reversed hform
    rwa [reversed_reversed] at hback
  · exact isChomskyForm_reversed

/-- Members are mirrored; both grammars answer, since both are in normal form. -/
theorem isMember_reversed (hform : g.isChomskyForm) (w : List Char) :
    g.reversed.isMember w.reverse = g.isMember w := by
  have hnormal := isChomskyForm_iff.mp hform
  have hmirrored := isChomskyForm_iff.mp (isChomskyForm_reversed hform)
  have hyields : g.reversed.Yields [g.start] w.reverse ↔ g.Yields [g.start] w :=
    yields_reversed_iff (u := [g.start])
  have hsame : ∀ b, g.reversed.isMember w.reverse = .ok b ↔ g.isMember w = .ok b := by
    intro b
    rw [isMember_eq_ok_iff hmirrored, isMember_eq_ok_iff hnormal, ne_eq, List.reverse_eq_nil_iff]
    exact iff_congr Iff.rfl (or_congr (and_congr_right fun _ => hyields) Iff.rfl)
  cases hanswer : g.isMember w with
  | ok b => exact (hsame b).mpr hanswer
  | error fault =>
      have hviolation := isMember_eq_error_iff.mp hanswer
      rw [firstViolation_eq_none_iff.mpr hnormal] at hviolation
      cases hviolation

/-! ## The reversed grammar -/

/-- Reversing twice changes nothing. The words within a depth are the mirror images of those within
the same depth, and what derives from a variable are the mirror images of what derived from it. The
reversed grammar is in normal form when the grammar is, and its members are the mirror images then. -/
theorem reversed_exact (g : Grammar) :
    g.reversed.reversed = g ∧
    (∀ depth, (g.reversed.produce depth).Perm ((g.produce depth).map List.reverse)) ∧
    (∀ c w, g.reversed.Derives [c] w.reverse ↔ g.Derives [c] w) ∧
    (g.reversed.isChomskyForm ↔ g.isChomskyForm) ∧
    (g.isChomskyForm → ∀ w, g.reversed.isMember w.reverse = g.isMember w) :=
  ⟨g.reversed_reversed, g.perm_produce_reversed, fun c _ => derives_reversed_iff (u := [c]),
    isChomskyForm_reversed_iff, isMember_reversed⟩

theorem reversed_exact_pairs : pairs.isChomskyForm ∧ pairs.reversed.isChomskyForm ∧
    (pairs.reversed.produce 7).Perm [[], ['b', 'a'], ['b', 'a', 'b', 'a']] ∧
    pairs.reversed.isMember ['b', 'a'] = .ok true ∧
    pairs.reversed.isMember ['a', 'b'] = .ok false := by
  obtain ⟨_, hproduce, _, hform, hmember⟩ := reversed_exact pairs
  have hnormal : pairs.isChomskyForm := by decide
  have hwords : pairs.produce 7 = [[], ['a', 'b'], ['a', 'b', 'a', 'b']] := by decide +kernel
  have hmirrored := hproduce 7
  rw [hwords] at hmirrored
  refine ⟨hnormal, hform.mpr hnormal, hmirrored, ?_, ?_⟩
  · exact (hmember hnormal ['a', 'b']).trans (by decide +kernel)
  · exact (hmember hnormal ['b', 'a']).trans (by decide +kernel)

end Grammar

end LanguageTheory
