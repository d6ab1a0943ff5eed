import LanguageTheory.Proofs.DFA.Morphism
import Mathlib.Data.List.Shortlex

/-!
# Canonical numbering

States are numbered canonically when they are ordered by their least words in shortlex order. The
numbering is kept when states are dropped or merged into their least members, and two automata so
numbered that differ in their numbers only are equal (`eq_of_isIso`).
-/

namespace LanguageTheory.DFA

variable {α : Type} [TotalOrd α] {d e : DFA α}

/-- Every state is reached, and states with lower numbers are reached by lesser words. -/
structure ShortlexNumbered (d : DFA α) : Prop where
  accessible : d.Accessible
  exists_lesser : ∀ p q, p < q → ∀ v, d.run d.start v = q →
    ∃ u, d.run d.start u = p ∧ List.Shortlex (· < ·) u v

/-! ## Collapsed automata -/

section Collapse

variable {states : List d.State} {hkept : 0 < (Numbering.ofList states).size}
  {representative : d.State → d.State}

/-- Keeping states in their order, with representatives that are no later, keeps the numbering. -/
theorem ShortlexNumbered.collapse (hd : d.ShortlexNumbered)
    (h : d.Represents (.ofList states) representative) (hstates : states.Pairwise (· < ·))
    (hstart : d.start ∈ states) (hle : ∀ p, representative p ≤ p) :
    (d.collapse (.ofList states) hkept representative).ShortlexNumbered := by
  have hzero : keptState (d.collapse (.ofList states) hkept representative).start = d.start :=
    keptState_start hstates hstart
  constructor
  · apply h.accessible_collapse hzero
    intro p _
    exact hd.accessible p
  · intro i j hij v hv
    have hrun := h.keptState_run (d.collapse (.ofList states) hkept representative).start v
    rw [hv, hzero] at hrun
    have hlt : keptState i < d.run d.start v :=
      calc keptState i < keptState j := keptState_lt_keptState hstates hij
        _ = representative (d.run d.start v) := hrun
        _ ≤ d.run d.start v := hle _
    obtain ⟨u, hu, hlesser⟩ := hd.exists_lesser _ _ hlt v rfl
    refine ⟨u, keptState_inj ?_, hlesser⟩
    rw [h.keptState_run, hzero, hu, h.eq_self _ (keptState_mem i)]

end Collapse

theorem ShortlexNumbered.minimize (hd : d.ShortlexNumbered) : d.minimize.ShortlexNumbered := by
  have htrim : d.trim.ShortlexNumbered := hd.collapse represents_trim pairwise_reachable
    d.start_mem_reachable fun p => Nat.le_refl p.val
  exact htrim.collapse represents_merge pairwise_leaderList
    (d.trim.start_mem_leaderList d.trim.classes) fun _ => Partition.leader_le

/-! ## Renumbered automata -/

/-- A bijection between runs of canonically numbered automata keeps the order of the states. -/
theorem strictMono_of_exists_lesser {k n m : Nat} {first : List (Fin k) → Fin n}
    {second : List (Fin k) → Fin m} {f : Fin n → Fin m} (hf : Function.Injective f)
    (hrun : ∀ u, second u = f (first u)) (hsurjective : Function.Surjective first)
    (hfirst : ∀ p q, p < q → ∀ v, first v = q → ∃ u, first u = p ∧ List.Shortlex (· < ·) u v)
    (hsecond : ∀ p q, p < q → ∀ v, second v = q →
      ∃ u, second u = p ∧ List.Shortlex (· < ·) u v) : StrictMono f := by
  intro p q hpq
  apply lt_of_le_of_ne _ fun heq => hpq.ne (hf heq)
  apply le_of_not_gt
  intro hswap
  -- a least word for either state would be preceded by a word for the other one
  have hwf : WellFounded (List.Shortlex (α := Fin k) (· < ·)) := List.Shortlex.wf wellFounded_lt
  have hnone : ∀ v, first v ≠ p ∧ first v ≠ q := by
    intro v
    induction v using hwf.induction with
    | _ v ih =>
        constructor
        · intro hv
          obtain ⟨u, hu, hlesser⟩ := hsecond _ _ hswap v (by rw [hrun, hv])
          rw [hrun] at hu
          exact (ih u hlesser).2 (hf hu)
        · intro hv
          obtain ⟨u, hu, hlesser⟩ := hfirst _ _ hpq v hv
          exact (ih u hlesser).1 hu
  obtain ⟨v, hv⟩ := hsurjective p
  exact (hnone v).1 hv

/-- Canonically numbered automata that differ in their numbers only are equal. -/
theorem eq_of_isIso {f : d.State ≃ e.State} (hf : IsIso f) (hd : d.ShortlexNumbered)
    (he : e.ShortlexNumbered) : d = e := by
  apply eq_of_strictMono hf
  have halphabet : e.alphabet = d.alphabet := hf.isMorphism.alphabet_eq
  obtain ⟨A, n, hn, table, accepting⟩ := d
  obtain ⟨B, m, hm, table', accepting'⟩ := e
  obtain rfl : B = A := halphabet
  let d : DFA α := ⟨B, n, hn, table, accepting⟩
  let e : DFA α := ⟨B, m, hm, table', accepting'⟩
  have hrun : ∀ letters : List d.Letter, e.run e.start letters = f (d.run d.start letters) := by
    intro letters
    have hmap : f (d.run d.start letters) = e.run (f d.start) letters :=
      hf.isMorphism.map_run rfl d.start
    rw [hf.map_start] at hmap
    exact hmap.symm
  exact strictMono_of_exists_lesser f.injective hrun hd.accessible hd.exists_lesser he.exists_lesser

end LanguageTheory.DFA
