import LanguageTheory.Grammar.Basic
import LanguageTheory.SortedSet.Closure

/-!
# Removal of unit productions

A unit production only renames a variable. Every variable gets copies of the other productions of
all variables that it can be renamed to, itself among them.
-/

namespace LanguageTheory.Grammar

variable {g : Grammar} {p : Production} {c d : Char}

/-- Whether a production only renames its variable. -/
def isUnit (g : Grammar) (p : Production) : Bool :=
  match p.rhs with
  | [c] => c ∈ g.vars
  | _ => false

/-- The variables that a unit production renames a variable to. -/
def unitTargets (g : Grammar) (c : Char) : SortedSet Char :=
  .ofList (((g.productionsOf c).filter g.isUnit).flatMap Production.rhs)

theorem mem_unitTargets : d ∈ g.unitTargets c ↔ ⟨c, [d]⟩ ∈ g.productions ∧ d ∈ g.vars := by
  simp only [unitTargets, SortedSet.mem_ofList, List.mem_flatMap, List.mem_filter,
    mem_productionsOf, isUnit]
  constructor
  · rintro ⟨⟨lhs, rhs⟩, ⟨⟨hp, rfl⟩, hunit⟩, hd⟩
    split at hunit
    next e he =>
      obtain rfl : rhs = [e] := he
      obtain rfl := List.mem_singleton.mp hd
      exact ⟨hp, of_decide_eq_true hunit⟩
    next => cases hunit
  · rintro ⟨hp, hd⟩
    exact ⟨⟨c, [d]⟩, ⟨⟨hp, rfl⟩, decide_eq_true hd⟩, List.mem_singleton_self d⟩

/-- The variables that a variable can be renamed to in any number of steps. -/
def unitClosure (g : Grammar) (c : Char) : SortedSet Char :=
  .closure g.unitTargets ⟨g.vars.toList, fun _ _ h => (mem_unitTargets.mp h).2⟩ {c}

/-- The productions without unit ones, with the copies that make up for them. -/
def unitFreeProductions (g : Grammar) : SortedSet Production :=
  .ofList (g.vars.toList.flatMap fun c => (g.unitClosure c).toList.flatMap fun d =>
    ((g.productionsOf d).filter fun p => !g.isUnit p).map fun p => ⟨c, p.rhs⟩)

theorem mem_unitFreeProductions : p ∈ g.unitFreeProductions ↔
    p.lhs ∈ g.vars ∧ ∃ d ∈ g.unitClosure p.lhs,
      ⟨d, p.rhs⟩ ∈ g.productions ∧ ¬ g.isUnit ⟨d, p.rhs⟩ := by
  obtain ⟨lhs, rhs⟩ := p
  simp only [unitFreeProductions, SortedSet.mem_ofList, List.mem_flatMap, List.mem_map,
    List.mem_filter, mem_productionsOf, SortedSet.mem_toList, Production.mk.injEq,
    Bool.not_eq_true']
  constructor
  · rintro ⟨c, hc, d, hd, ⟨lhs', rhs'⟩, ⟨⟨hp, rfl⟩, hunit⟩, rfl, rfl⟩
    exact ⟨hc, lhs', hd, hp, by simp [hunit]⟩
  · rintro ⟨hc, d, hd, hp, hunit⟩
    exact ⟨lhs, hc, d, hd, ⟨d, rhs⟩, ⟨⟨hp, rfl⟩, by simpa using hunit⟩, rfl, rfl⟩

/-- A grammar of the same words without unit productions. -/
def removeUnit (g : Grammar) : Grammar :=
  { g with
    productions := g.unitFreeProductions
    lhs_mem := fun _ hp => (mem_unitFreeProductions.mp hp).1
    rhs_mem := fun _ hp c hc => by
      obtain ⟨_, d, _, hd, _⟩ := mem_unitFreeProductions.mp hp
      exact g.rhs_mem ⟨d, _⟩ hd c hc
    admitted := fun _ hp => by
      obtain ⟨_, d, _, hd, _⟩ := mem_unitFreeProductions.mp hp
      exact g.admitted ⟨d, _⟩ hd }

end LanguageTheory.Grammar
