import LanguageTheory.Proofs.DFA.Numbering
import LanguageTheory.Proofs.DFA.Quotient
import LanguageTheory.Proofs.Flat.Minimize
import Mathlib.Data.List.TFAE

/-!
# Minimal automata are their own minimal automata

An automaton passes the check for minimality when it is accessible and reduced. The states of the
minimal automaton are made from states of the automaton, in their order, so there are no more of
them; if there are as many, nothing has been dropped or merged, and no number has changed
(`minimize_eq_self`). The check, the fewest states and the fixed points are thus the same
(`isMinimal_tfae`).
-/

namespace LanguageTheory.DFA

variable {α : Type} [TotalOrd α] {d : DFA α}

/-! ## The check -/

theorem accessible_iff : d.Accessible ↔ ∀ p, p ∈ d.reachable :=
  forall_congr' fun _ => mem_reachable.symm

/-- All states are reachable when there are as many reachable ones. -/
theorem size_reachable_eq_iff : d.reachable.size = d.states ↔ d.Accessible := by
  rw [accessible_iff]
  constructor
  · intro hsize p
    -- a listing without repetitions that is as long as the listing of all states has them all
    have hperm : d.reachable.toList.Perm (List.finRange d.states) := by
      apply (d.reachable.nodup.subperm fun q _ => List.mem_finRange q).perm_of_length_le
      rw [SortedSet.length_toList, hsize, List.length_finRange]
    exact hperm.mem_iff.mpr (List.mem_finRange p)
  · intro hall
    have hsame : ∀ q, q ∈ d.reachable ↔ q ∈ List.finRange d.states := fun q =>
      iff_of_true (hall q) (List.mem_finRange q)
    rw [SortedSet.size_eq_of_nodup (List.nodup_finRange _) hsame, List.length_finRange]

/-- States with one language are equal when every state leads its class. -/
theorem reduced_iff : d.Reduced ↔ ∀ p, d.classes.leader p = p := by
  constructor
  · intro hreduced p
    exact hreduced (leader_classes_eq_iff_languageFrom_eq.mp Partition.leader_leader)
  · intro hleader p q hpq
    have hclass := leader_classes_eq_iff_languageFrom_eq.mpr hpq
    rwa [hleader, hleader] at hclass

/-- The check for minimality asks for an accessible and reduced automaton. -/
theorem isMinimal_iff : d.isMinimal ↔ d.Accessible ∧ d.Reduced := by
  rw [isMinimal, Bool.and_eq_true, beq_iff_eq, size_reachable_eq_iff, reduced_iff]
  simp [List.mem_finRange]

/-! ## Fixed points -/

/-- An accessible and reduced automaton has a state of the minimal automaton for each of its own. -/
theorem bijective_lowestMember (haccessible : d.Accessible) (hreduced : d.Reduced) :
    Function.Bijective d.lowestMember := by
  refine ⟨d.strictMono_lowestMember.injective, ?_⟩
  intro p
  obtain ⟨i, hi⟩ := exists_languageFrom_minimize_eq (accessible_iff.mp haccessible p)
  refine ⟨i, hreduced ?_⟩
  rw [languageFrom_lowestMember, hi]

/-- Where no state is dropped or merged, the numbers stay. -/
theorem minimize_eq_self (haccessible : d.Accessible) (hreduced : d.Reduced) :
    d.minimize = d := by
  let f : d.minimize.State ≃ d.State :=
    Equiv.ofBijective d.lowestMember (bijective_lowestMember haccessible hreduced)
  have hiso : IsIso f := isIso_of_languageFrom_eq d.reduced_minimize d.alphabet_minimize.symm
    d.language_minimize.symm languageFrom_lowestMember
  exact eq_of_strictMono hiso d.strictMono_lowestMember

theorem isMinimal_minimize (d : DFA α) : d.minimize.isMinimal :=
  isMinimal_iff.mpr ⟨d.accessible_minimize, d.reduced_minimize⟩

theorem minimize_minimize (d : DFA α) : d.minimize.minimize = d.minimize :=
  minimize_eq_self d.accessible_minimize d.reduced_minimize

/-! ## Fewest states -/

/-- An automaton with no more states than its minimal automaton is accessible and reduced. -/
theorem accessible_and_reduced_of_states_le (hstates : d.states ≤ d.minimize.states) :
    d.Accessible ∧ d.Reduced := by
  have hinjective : Function.Injective d.lowestMember := d.strictMono_lowestMember.injective
  have hcard := Fintype.card_le_of_injective _ hinjective
  rw [Fintype.card_fin, Fintype.card_fin] at hcard
  have hsurjective : Function.Surjective d.lowestMember := by
    apply ((Fintype.bijective_iff_injective_and_card _).mpr ⟨hinjective, ?_⟩).2
    rw [Fintype.card_fin, Fintype.card_fin]
    exact Nat.le_antisymm hcard hstates
  constructor
  · refine accessible_iff.mpr fun p => ?_
    obtain ⟨i, rfl⟩ := hsurjective p
    exact lowestMember_mem i
  · intro p q hpq
    obtain ⟨i, rfl⟩ := hsurjective p
    obtain ⟨j, rfl⟩ := hsurjective q
    rw [languageFrom_lowestMember, languageFrom_lowestMember] at hpq
    exact congrArg d.lowestMember (d.reduced_minimize hpq)

/-- An automaton passes the check for minimality exactly when no automaton over its alphabet has
fewer states for the same words, and exactly when it is its own minimal automaton. Every minimal
automaton is such an automaton. Check and construction go through a table of pairs that is filled in
place, and never leave it. -/
theorem isMinimal_tfae (d : DFA α) :
    [(d.isMinimal : Prop),
      ∀ e : DFA α, e.alphabet = d.alphabet →
        (∀ w, e.recognizes w = .ok true ↔ d.recognizes w = .ok true) → d.states ≤ e.states,
      d.minimize = d].TFAE ∧
    d.minimize.isMinimal ∧ d.minimize.minimize = d.minimize ∧
    d.flat.isMinimal? = some d.isMinimal ∧ d.flat.minimize? = some d.minimize.flat := by
  refine ⟨?_, d.isMinimal_minimize, d.minimize_minimize, isMinimal?_flat, minimize?_flat⟩
  tfae_have 1 → 3 := by
    intro hminimal
    obtain ⟨haccessible, hreduced⟩ := isMinimal_iff.mp hminimal
    exact minimize_eq_self haccessible hreduced
  tfae_have 3 → 2 := by
    intro hfixed e halphabet hwords
    have hlanguage : e.language = d.language := by
      ext w
      rw [← recognizes_eq_ok_true_iff, ← recognizes_eq_ok_true_iff]
      exact hwords w
    have haccessible : d.Accessible := hfixed ▸ d.accessible_minimize
    have hreduced : d.Reduced := hfixed ▸ d.reduced_minimize
    exact (states_le_and_exists_isIso haccessible hreduced halphabet hlanguage).1
  tfae_have 2 → 1 := by
    intro hfewest
    apply isMinimal_iff.mpr
    apply accessible_and_reduced_of_states_le
    apply hfewest d.minimize d.alphabet_minimize
    intro w
    rw [recognizes_eq_ok_true_iff, recognizes_eq_ok_true_iff, language_minimize]
  tfae_finish

theorem isMinimal_tfae_circle : ¬ (circle 2).isMinimal ∧ (circle 2).minimize ≠ circle 2 ∧
    (circle 2).minimize.isMinimal := by
  obtain ⟨htfae, hminimal, _⟩ := isMinimal_tfae (circle 2)
  have hcheck : ¬ (circle 2).isMinimal := by
    intro hcheck
    have hfewest := (htfae.out 0 1).mp hcheck
    have hle : (circle 2).states ≤ (circle 0).states :=
      hfewest (circle 0) rfl (recognizes_circle 0 2)
    exact absurd hle (by decide)
  refine ⟨hcheck, ?_, hminimal⟩
  intro hfixed
  exact hcheck ((htfae.out 0 2).mpr hfixed)

end LanguageTheory.DFA
