import LanguageTheory.Proofs.Sweep
import LanguageTheory.Proofs.Grammar.LambdaFree
import Mathlib.Data.List.Dedup
import Mathlib.Data.List.Perm.Subperm

/-!
# Variables found in place

Variables that yield words over given symbols can be found in place: the productions are gone
through one after another, and a variable counts as found for the productions after the one that it
is found at. Neither the order of the productions nor repetitions matter (`state_findYielding`). So
it is with the variables that vanish (`findVanishing_exact`), also where productions turn in circles.
-/

namespace LanguageTheory.Grammar

variable {g : Grammar} {base : Char → Bool} {order : List Production} {found : SortedSet Char}
  {p : Production} {c : Char}

/-! ## Sweeps over productions -/

/-- The variables that the listed productions are for, each once. -/
def heads (order : List Production) : List Char := (order.map Production.lhs).dedup

/-- Finds the variable of a production whose other symbols are given or found. -/
def yieldSweep (base : Char → Bool) (order : List Production) :
    Sweep (SortedSet Char) Production where
  items := order
  visit found p :=
    if p.lhs ∉ found ∧ covers base found p.rhs then some (insert p.lhs found) else none
  size found := ((heads order).filter fun c => c ∉ found).length
  size_lt := by
    intro found larger p hp hvisit
    split at hvisit
    next hnew =>
      obtain rfl := Option.some.inj hvisit
      have hhead : p.lhs ∈ heads order := List.mem_dedup.mpr (List.mem_map_of_mem hp)
      apply length_filter_lt _ hhead
      · simpa using hnew.1
      · simp
      · intro c hc
        simp only [SortedSet.mem_insert, not_or, decide_eq_true_eq] at hc ⊢
        exact hc.2
    next => cases hvisit

theorem visit_yieldSweep_eq_some_iff {larger : SortedSet Char} :
    (yieldSweep base order).visit found p = some larger ↔
      (p.lhs ∉ found ∧ covers base found p.rhs) ∧ insert p.lhs found = larger := by
  simp [yieldSweep]

theorem visit_yieldSweep_eq_none_iff :
    (yieldSweep base order).visit found p = none ↔ (covers base found p.rhs → p.lhs ∈ found) := by
  simp only [yieldSweep, ite_eq_right_iff, reduceCtorEq, imp_false, not_and]
  tauto

/-- Finds variables until a sweep over all productions finds none. -/
def findYielding (base : Char → Bool) (order : List Production) : Settled (SortedSet Char) :=
  (yieldSweep base order).settle ∅

section Order

variable (horder : ∀ p, p ∈ order ↔ p ∈ g.productions)
include horder

/-- Every sweep but the last one finds a variable. -/
theorem sweeps_findYielding_le : (findYielding base order).sweeps ≤ g.vars.size + 1 := by
  refine Nat.le_trans Sweep.sweeps_settle_le (Nat.succ_le_succ ?_)
  have hvars : heads order ⊆ g.vars.toList := by
    intro c hc
    obtain ⟨p, hp, rfl⟩ := List.mem_map.mp (List.mem_dedup.mp hc)
    exact g.lhs_mem p ((horder p).mp hp)
  calc ((heads order).filter fun c => c ∉ (∅ : SortedSet Char)).length
      ≤ (heads order).length := List.length_filter_le _ _
    _ ≤ g.vars.toList.length := (List.subperm_of_subset (List.nodup_dedup _) hvars).length_le
    _ = g.vars.size := g.vars.length_toList

/-- What is found in place is what is found in rounds, whatever the order of the productions. -/
theorem state_findYielding : (findYielding base order).state = g.yielding base := by
  apply SortedSet.ext
  intro c
  constructor
  · revert c
    refine Sweep.settle_induction (motive := fun found => ∀ c ∈ found, c ∈ g.yielding base) ?_ ?_
    · intro found larger p hp hfound hvisit
      obtain ⟨⟨_, hcovers⟩, rfl⟩ := visit_yieldSweep_eq_some_iff.mp hvisit
      have hhead : p.lhs ∈ g.yielding base := by
        apply lhs_mem_yielding ((horder p).mp hp)
        exact covers_iff.mpr fun c hc => (covers_iff.mp hcovers c hc).imp_right (hfound c)
      intro c hc
      rcases SortedSet.mem_insert.mp hc with rfl | hold
      · exact hhead
      · exact hfound c hold
    · intro c hc
      exact absurd hc (SortedSet.not_mem_empty c)
  · refine yielding_induction (motive := fun c => c ∈ (findYielding base order).state) ?_
    intro p hp hrhs
    exact visit_yieldSweep_eq_none_iff.mp (Sweep.visit_settle ((horder p).mpr hp))
      (covers_iff.mpr hrhs)

end Order

/-! ## Vanishing variables -/

/-- Finds the variables that can vanish: those over no given symbol. -/
def findVanishing (order : List Production) : Settled (SortedSet Char) :=
  findYielding (fun _ => false) order

/-- The productions of a grammar may be listed in any order and turn in any circles. Gone through in
place, again and again, they have a new variable in every sweep but the last one, and what is found
in the end are the variables that derive the empty word. -/
theorem findVanishing_exact (g : Grammar) {order : List Production}
    (horder : ∀ p, p ∈ order ↔ p ∈ g.productions) :
    (findVanishing order).sweeps ≤ g.vars.size + 1 ∧
    (∀ c, c ∈ (findVanishing order).state ↔ c ∈ g.vars ∧ g.Derives [c] []) ∧
    (findVanishing order).state = g.nullable := by
  have hstate : (findVanishing order).state = g.nullable := state_findYielding horder
  refine ⟨sweeps_findYielding_le horder, ?_, hstate⟩
  intro c
  rw [hstate, mem_nullable_iff_derives]

/-- The grammar of `S -> AB`, `A -> B`, `B -> A | λ` and `C -> CA | aC`. -/
def revolving : Grammar where
  terminals := {'a'}
  vars := .ofList ['S', 'A', 'B', 'C']
  productions := .ofList [⟨'S', ['A', 'B']⟩, ⟨'A', ['B']⟩, ⟨'B', ['A']⟩, ⟨'B', []⟩,
    ⟨'C', ['C', 'A']⟩, ⟨'C', ['a', 'C']⟩]
  start := 'S'
  kind := .contextFree
  acceptsEmpty := false
  start_mem := by decide
  disjoint := by simp [SortedSet.mem_ofList]
  lhs_mem := by decide
  rhs_mem := by simp [SortedSet.mem_ofList]
  admitted := by decide

theorem findVanishing_exact_revolving :
    (∀ p, p ∈ revolving.productions.toList.reverse ↔ p ∈ revolving.productions) ∧
    (findVanishing revolving.productions.toList.reverse).sweeps ≤ 5 ∧
    'S' ∈ (findVanishing revolving.productions.toList.reverse).state ∧
    'C' ∉ (findVanishing revolving.productions.toList.reverse).state := by
  have horder : ∀ p, p ∈ revolving.productions.toList.reverse ↔ p ∈ revolving.productions :=
    fun _ => List.mem_reverse
  obtain ⟨hsweeps, hderives, hstate⟩ := findVanishing_exact revolving horder
  have hB : revolving.Yields ['B'] [] :=
    .of_production (by decide : ⟨'B', []⟩ ∈ revolving.productions) .nil
  have hA : revolving.Yields ['A'] [] :=
    .of_production (by decide : ⟨'A', ['B']⟩ ∈ revolving.productions) hB
  have hS : revolving.Yields ['S'] [] :=
    .of_production (by decide : ⟨'S', ['A', 'B']⟩ ∈ revolving.productions) (hA.append hB)
  refine ⟨horder, hsweeps, (hderives 'S').mpr ⟨by decide, hS.derives⟩, ?_⟩
  rw [hstate]
  decide +kernel

end LanguageTheory.Grammar
