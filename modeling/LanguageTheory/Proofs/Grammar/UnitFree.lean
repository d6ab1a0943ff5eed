import LanguageTheory.Grammar.UnitFree
import LanguageTheory.Proofs.Grammar.Yields

/-!
# Words without unit productions

Removing unit productions keeps the words of every variable (`yields_removeUnit_iff`). A chain of
unit productions, however long and however often it turns around, ends at a production that is none,
and that production has been copied to the beginning of the chain. Nothing else has been copied
(`removeUnit_exact`).
-/

namespace LanguageTheory.Grammar

variable {g : Grammar} {u w : List Char} {c d : Char}

/-- The variables that `c` can be renamed to by productions `x → y`. -/
theorem mem_unitClosure_iff :
    d ∈ g.unitClosure c ↔ Linked (fun x y => y ∈ g.unitTargets x) c d :=
  SortedSet.mem_closure_singleton

theorem Yields.of_unitClosure (hd : d ∈ g.unitClosure c) (h : g.Yields [d] w) : g.Yields [c] w := by
  have hlinked := mem_unitClosure_iff.mp hd
  induction hlinked with
  | refl => exact h
  | tail hlinked hunit ih =>
      have hproduction := (mem_unitTargets.mp hunit).1
      exact ih (mem_unitClosure_iff.mpr hlinked) (.of_production hproduction h)

theorem mem_unitFreeProductions_of_not_isUnit {rhs : List Char} (hp : ⟨c, rhs⟩ ∈ g.productions)
    (hunit : ¬ g.isUnit ⟨c, rhs⟩) : ⟨c, rhs⟩ ∈ g.unitFreeProductions :=
  mem_unitFreeProductions.mpr
    ⟨g.lhs_mem _ hp, c, mem_unitClosure_iff.mpr .refl, hp, hunit⟩

/-- What a variable is renamed to lends it its productions. -/
theorem mem_unitFreeProductions_of_unit {rhs : List Char} (hunit : d ∈ g.unitTargets c)
    (hd : ⟨d, rhs⟩ ∈ g.unitFreeProductions) : ⟨c, rhs⟩ ∈ g.unitFreeProductions := by
  obtain ⟨_, e, he, hp, hnot⟩ := mem_unitFreeProductions.mp hd
  have hlinked : Linked (fun x y => y ∈ g.unitTargets x) c e :=
    (mem_unitClosure_iff.mp he).head hunit
  have hc : c ∈ g.vars := g.lhs_mem _ (mem_unitTargets.mp hunit).1
  exact mem_unitFreeProductions.mpr ⟨hc, e, mem_unitClosure_iff.mpr hlinked, hp, hnot⟩

theorem isUnit_iff {rhs : List Char} : g.isUnit ⟨c, rhs⟩ ↔ ∃ d ∈ g.vars, rhs = [d] := by
  unfold isUnit
  constructor
  · intro hunit
    split at hunit
    next d hrhs => exact ⟨d, of_decide_eq_true hunit, hrhs⟩
    next => cases hunit
  · rintro ⟨d, hd, rfl⟩
    exact decide_eq_true hd

theorem Yields.of_removeUnit (h : g.removeUnit.Yields u w) : g.Yields u w := by
  induction h with
  | nil => exact .nil
  | terminal hc _ ih => exact .terminal hc ih
  | production hp _ _ ihrhs ihrest =>
      obtain ⟨_, d, hd, hold, _⟩ := mem_unitFreeProductions.mp hp
      exact (Yields.of_unitClosure hd (.of_production hold ihrhs)).append ihrest

theorem Yields.removeUnit (h : g.Yields u w) : g.removeUnit.Yields u w := by
  induction h with
  | nil => exact .nil
  | terminal hc _ ih => exact .terminal hc ih
  | @production c rhs rest v w hp _ _ ihrhs ihrest =>
      by_cases hunit : g.isUnit ⟨c, rhs⟩
      · -- the renamed variable already has a production that is no unit one; it is copied here
        obtain ⟨d, hd, rfl⟩ := isUnit_iff.mp hunit
        have htarget : d ∈ g.unitTargets c := mem_unitTargets.mpr ⟨hp, hd⟩
        cases ihrhs with
        | terminal hterminal => exact absurd hd (g.disjoint d hterminal)
        | production hcopied hrhs hnil =>
            cases hnil
            rw [List.append_nil]
            exact .production (mem_unitFreeProductions_of_unit htarget hcopied) hrhs ihrest
      · exact .production (mem_unitFreeProductions_of_not_isUnit hp hunit) ihrhs ihrest

/-- Without unit productions every form has the words it had. -/
theorem yields_removeUnit_iff : g.removeUnit.Yields u w ↔ g.Yields u w :=
  ⟨Yields.of_removeUnit, Yields.removeUnit⟩

/-! ## Exactness -/

/-- One variable is renamed to another by a unit production. -/
def Renames (g : Grammar) (c d : Char) : Prop := ⟨c, [d]⟩ ∈ g.productions ∧ d ∈ g.vars

theorem mem_unitClosure_iff_renames : d ∈ g.unitClosure c ↔ Linked g.Renames c d := by
  simp only [mem_unitClosure_iff, mem_unitTargets]
  exact Iff.rfl

theorem mem_vars_of_renames (h : Linked g.Renames c d) (hd : d ∈ g.vars) : c ∈ g.vars := by
  induction h with
  | refl => exact hd
  | tail _ hlast ih => exact ih (g.lhs_mem _ hlast.1)

/-- The productions that are left are the ones that a chain of renamings leads to, the empty chain
among them, at the variable where the chain begins. -/
theorem mem_productions_removeUnit_iff {p : Production} : p ∈ g.removeUnit.productions ↔
    ∃ d, Linked g.Renames p.lhs d ∧ ⟨d, p.rhs⟩ ∈ g.productions ∧ ¬ ∃ e ∈ g.vars, p.rhs = [e] := by
  have hmem : p ∈ g.removeUnit.productions ↔ p ∈ g.unitFreeProductions := Iff.rfl
  simp only [hmem, mem_unitFreeProductions, mem_unitClosure_iff_renames, isUnit_iff]
  refine and_iff_right_of_imp ?_
  rintro ⟨d, hlinked, hp, _⟩
  exact mem_vars_of_renames hlinked (g.lhs_mem _ hp)

/-- No production only renames its variable. The productions are what the others lend to every
variable from which a chain of renamings leads to theirs, and nothing else. Every variable keeps its
words. -/
theorem removeUnit_exact (g : Grammar) :
    (∀ p ∈ g.removeUnit.productions, ¬ ∃ d ∈ g.removeUnit.vars, p.rhs = [d]) ∧
      (∀ p, p ∈ g.removeUnit.productions ↔ ∃ d, Linked g.Renames p.lhs d ∧
        ⟨d, p.rhs⟩ ∈ g.productions ∧ ¬ ∃ e ∈ g.vars, p.rhs = [e]) ∧
      ∀ c w, g.removeUnit.Generates c w ↔ g.Generates c w := by
  refine ⟨?_, fun _ => mem_productions_removeUnit_iff, ?_⟩
  · intro p hp
    obtain ⟨_, _, _, hunit⟩ := mem_productions_removeUnit_iff.mp hp
    exact hunit
  · intro c w
    rw [Generates, Generates, ← yields_iff, ← yields_iff]
    exact yields_removeUnit_iff

/-- The grammar of `S -> TT`, `T -> U | λ` and `U -> T | b`, whose renamings turn around. -/
def turning : Grammar where
  terminals := .ofList ['b']
  vars := .ofList ['S', 'T', 'U']
  productions := .ofList [⟨'S', ['T', 'T']⟩, ⟨'T', ['U']⟩, ⟨'T', []⟩, ⟨'U', ['T']⟩, ⟨'U', ['b']⟩]
  start := 'S'
  kind := .contextFree
  acceptsEmpty := false
  start_mem := by decide
  disjoint := by simp [SortedSet.mem_ofList]
  lhs_mem := by decide
  rhs_mem := by simp [SortedSet.mem_ofList]
  admitted := by decide

theorem removeUnit_exact_turning : ⟨'T', ['U']⟩ ∉ turning.removeUnit.productions ∧
    ⟨'T', ['b']⟩ ∈ turning.removeUnit.productions ∧
      ⟨'U', []⟩ ∈ turning.removeUnit.productions ∧ turning.removeUnit.Generates 'S' ['b'] := by
  obtain ⟨hunit, hproductions, hwords⟩ := removeUnit_exact turning
  have hto : turning.Renames 'T' 'U' := ⟨by decide, by decide⟩
  have hback : turning.Renames 'U' 'T' := ⟨by decide, by decide⟩
  have hempty : turning.Yields ['T'] [] :=
    .of_production (by decide : ⟨'T', []⟩ ∈ turning.productions) .nil
  have hword : turning.Yields ['T'] ['b'] :=
    .of_production (by decide : ⟨'T', ['U']⟩ ∈ turning.productions)
      (.of_production (by decide : ⟨'U', ['b']⟩ ∈ turning.productions) (.self (by decide)))
  have hletter : ¬ ∃ e ∈ turning.vars, ['b'] = [e] := by
    intro ⟨e, he, hsame⟩
    obtain rfl : 'b' = e := List.singleton_inj.mp hsame
    exact absurd he (by decide)
  refine ⟨?_, ?_, ?_, ?_⟩
  · intro hrenames
    exact hunit _ hrenames ⟨'U', by decide, rfl⟩
  · exact (hproductions _).mpr ⟨'U', .tail .refl hto, by decide, hletter⟩
  · exact (hproductions _).mpr ⟨'T', .tail .refl hback, by decide, by simp⟩
  · refine (hwords 'S' ['b']).mpr (yields_iff.mp ?_)
    exact .of_production (by decide : ⟨'S', ['T', 'T']⟩ ∈ turning.productions) (hempty.append hword)

end LanguageTheory.Grammar
