import LanguageTheory.Proofs.DFA.Optimal
import Mathlib.Order.Bounds.Defs
import Mathlib.Order.Monotone.Defs

/-!
# The classes of reachable states

Every state of the minimal automaton stands for the reachable states with its words, and is made from
the lowest of them (`isLeast_lowestMember`). Keeping reachable states in their order and then the
leaders of classes in theirs keeps the order of these lowest members, so the numbers of the minimal
automaton follow it (`exists_isQuotient`).
-/

namespace LanguageTheory.DFA

variable {α : Type} [TotalOrd α] {d : DFA α} {p q : d.State} {i : d.minimize.State}

/-! ## Lowest members -/

/-- The state that a state of the minimal automaton is made from. -/
def lowestMember (d : DFA α) (i : d.minimize.State) : d.State := d.untrim (d.trim.unmerge i)

theorem strictMono_lowestMember (d : DFA α) : StrictMono d.lowestMember :=
  d.strictMono_untrim.comp d.trim.strictMono_unmerge

theorem languageFrom_lowestMember (i : d.minimize.State) :
    d.languageFrom (d.lowestMember i) = d.minimize.languageFrom i :=
  (languageFrom_untrim _).trans (languageFrom_unmerge i)

theorem lowestMember_le (hp : p ∈ d.reachable)
    (hwords : d.languageFrom p = d.minimize.languageFrom i) : d.lowestMember i ≤ p := by
  obtain ⟨k, rfl⟩ := exists_untrim_eq hp
  have hsame : d.trim.languageFrom (d.trim.unmerge i) = d.trim.languageFrom k :=
    calc d.trim.languageFrom (d.trim.unmerge i) = d.minimize.languageFrom i :=
          languageFrom_unmerge i
      _ = d.languageFrom (d.untrim k) := hwords.symm
      _ = d.trim.languageFrom k := languageFrom_untrim k
  exact d.strictMono_untrim.monotone (unmerge_le hsame)

theorem lowestMember_mem (i : d.minimize.State) : d.lowestMember i ∈ d.reachable := untrim_mem _

/-- A state of the minimal automaton is made from the lowest reachable state with its words. -/
theorem isLeast_lowestMember (i : d.minimize.State) :
    IsLeast {p | p ∈ d.reachable ∧ d.languageFrom p = d.minimize.languageFrom i}
      (d.lowestMember i) := by
  constructor
  · exact ⟨lowestMember_mem i, languageFrom_lowestMember i⟩
  · intro p hp
    exact lowestMember_le hp.1 hp.2

/-- No language of a reachable state is lost. -/
theorem exists_languageFrom_minimize_eq (hp : p ∈ d.reachable) :
    ∃ i, d.minimize.languageFrom i = d.languageFrom p := by
  obtain ⟨k, rfl⟩ := exists_untrim_eq hp
  rw [languageFrom_untrim]
  have halphabet : d.minimize.alphabet = d.trim.alphabet := rfl
  exact exists_languageFrom_eq d.accessible_trim halphabet d.trim.language_merge k

/-! ## The quotient -/

/-- The reachable states are mapped onto the states of the minimal automaton. The map keeps the initial
state, all transitions and finality, and takes states to one state when they have the same words. The
images are in the order of the lowest reachable states with the words of each. -/
structure IsQuotient (d : DFA α) (h : d.State → d.minimize.State) (lowest : d.State → d.State) :
    Prop where
  surjective : ∀ i, ∃ p ∈ d.reachable, h p = i
  map_start : h d.start = d.minimize.start
  transition?_map : ∀ p ∈ d.reachable, ∀ symbol,
    d.minimize.transition? (h p) symbol = (d.transition? p symbol).map h
  isFinal_map : ∀ p ∈ d.reachable, d.minimize.isFinal (h p) = d.isFinal p
  eq_iff : ∀ p ∈ d.reachable, ∀ q ∈ d.reachable,
    h p = h q ↔ d.languageFrom p = d.languageFrom q
  isLeast_lowest : ∀ p ∈ d.reachable,
    IsLeast {q | q ∈ d.reachable ∧ d.languageFrom q = d.languageFrom p} (lowest p)
  lt_iff : ∀ p ∈ d.reachable, ∀ q ∈ d.reachable, h p < h q ↔ lowest p < lowest q

theorem mem_reachable_of_transition? {a : α} (hp : p ∈ d.reachable)
    (htarget : d.transition? p a = some q) : q ∈ d.reachable := by
  obtain ⟨letters, rfl⟩ := mem_reachable.mp hp
  obtain ⟨letter, _, rfl⟩ := transition?_eq_some_iff.mp htarget
  refine mem_reachable.mpr ⟨letters ++ [letter], ?_⟩
  rw [run_append, run_cons, run_nil]

/-- Whatever keeps the words of the reachable states is the quotient. -/
theorem isQuotient_of_languageFrom_eq {h : d.State → d.minimize.State}
    (hh : ∀ p ∈ d.reachable, d.minimize.languageFrom (h p) = d.languageFrom p) :
    d.IsQuotient h fun p => d.lowestMember (h p) where
  surjective i := by
    refine ⟨d.lowestMember i, lowestMember_mem i, d.reduced_minimize ?_⟩
    rw [hh _ (lowestMember_mem i), languageFrom_lowestMember]
  map_start := by
    apply d.reduced_minimize
    rw [hh _ d.start_mem_reachable]
    exact d.language_minimize.symm
  transition?_map p hp _ :=
    transition?_map_of_languageFrom_eq d.reduced_minimize d.alphabet_minimize (hh p hp)
      fun q hq => hh q (mem_reachable_of_transition? hp hq)
  isFinal_map p hp := isFinal_eq_of_languageFrom_eq (hh p hp)
  eq_iff p hp q hq := by
    rw [← hh p hp, ← hh q hq]
    exact d.reduced_minimize.eq_iff.symm
  isLeast_lowest p hp := by
    rw [← hh p hp]
    exact isLeast_lowestMember (h p)
  lt_iff _ _ _ _ := d.strictMono_lowestMember.lt_iff_lt.symm

/-- The reachable states of any automaton are mapped onto those of its minimal automaton, which are the
classes of states with the same words in the order of their lowest members. -/
theorem exists_isQuotient (d : DFA α) : ∃ h lowest, d.IsQuotient h lowest := by
  have : Nonempty d.minimize.State := ⟨d.minimize.start⟩
  have hexists : ∀ p, p ∈ d.reachable → ∃ i, d.minimize.languageFrom i = d.languageFrom p :=
    fun p => exists_languageFrom_minimize_eq
  choose! h hh using hexists
  exact ⟨h, _, isQuotient_of_languageFrom_eq hh⟩

end LanguageTheory.DFA
