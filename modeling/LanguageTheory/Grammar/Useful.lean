import LanguageTheory.Grammar.Yield

/-!
# Removal of useless productions

A production is of use when all its variables derive words and the start variable leads to it.
Variables that derive no word go first, then those not reached; the start variable always stays.
-/

namespace LanguageTheory.Grammar

variable {g : Grammar} {p : Production} {c d : Char}

/-- Whether a variable and all variables of its production derive words. -/
def isProductive (g : Grammar) (p : Production) : Bool :=
  p.lhs ∈ g.generating && covers (fun c => c ∉ g.vars) g.generating p.rhs

/-- The productions whose variables all derive words. -/
def productive (g : Grammar) : SortedSet Production :=
  let generating := g.generating
  g.productions.filter fun p =>
    p.lhs ∈ generating && covers (fun c => c ∉ g.vars) generating p.rhs

theorem mem_productive : p ∈ g.productive ↔ p ∈ g.productions ∧ g.isProductive p :=
  SortedSet.mem_filter

/-- The variables in the productions of a variable, among the given productions. -/
def calledVariables (g : Grammar) (productions : SortedSet Production) (c : Char) :
    SortedSet Char :=
  .ofList ((productions.toList.filter fun p => p.lhs = c).flatMap fun p =>
    p.rhs.filter (· ∈ g.vars))

theorem mem_calledVariables {productions : SortedSet Production} :
    d ∈ g.calledVariables productions c ↔
      d ∈ g.vars ∧ ∃ p ∈ productions, p.lhs = c ∧ d ∈ p.rhs := by
  simp only [calledVariables, SortedSet.mem_ofList, List.mem_flatMap, List.mem_filter,
    SortedSet.mem_toList, decide_eq_true_eq]
  constructor
  · rintro ⟨p, ⟨hp, hlhs⟩, hd, hvar⟩
    exact ⟨hvar, p, hp, hlhs, hd⟩
  · rintro ⟨hvar, p, hp, hlhs, hd⟩
    exact ⟨p, ⟨hp, hlhs⟩, hd, hvar⟩

/-- The variables reached from the start variable by the given productions. -/
def reached (g : Grammar) (productions : SortedSet Production) : SortedSet Char :=
  .closure (g.calledVariables productions)
    ⟨g.vars.toList, fun _ _ h => (mem_calledVariables.mp h).1⟩ {g.start}

theorem start_mem_reached {productions : SortedSet Production} :
    g.start ∈ g.reached productions :=
  SortedSet.mem_closure.mpr ⟨g.start, SortedSet.mem_singleton.mpr rfl, .refl⟩

theorem mem_variables_of_mem_reached {productions : SortedSet Production}
    (h : c ∈ g.reached productions) : c ∈ g.vars := by
  obtain ⟨a, ha, hlinked⟩ := SortedSet.mem_closure.mp h
  cases hlinked with
  | refl => exact SortedSet.mem_singleton.mp ha ▸ g.start_mem
  | tail _ hc => exact (mem_calledVariables.mp hc).1

/-- A grammar of the same words in which every production is of use. -/
def removeUseless (g : Grammar) : Grammar :=
  let productive := g.productive
  let reached := g.reached productive
  { g with
    vars := reached
    productions := productive.filter fun p => p.lhs ∈ reached
    start_mem := start_mem_reached
    disjoint := fun c hc hvar => g.disjoint c hc (mem_variables_of_mem_reached hvar)
    lhs_mem := fun p hp => of_decide_eq_true (SortedSet.mem_filter.mp hp).2
    rhs_mem := fun p hp c hc => by
      obtain ⟨hproductive, hreached⟩ := SortedSet.mem_filter.mp hp
      rcases g.rhs_mem p (mem_productive.mp hproductive).1 c hc with hvar | hterm
      · exact .inl (SortedSet.mem_closure_of_next (of_decide_eq_true hreached)
          (mem_calledVariables.mpr ⟨hvar, p, hproductive, rfl, hc⟩))
      · exact .inr hterm
    admitted := fun p hp => by
      have hproductive := mem_productive.mp (SortedSet.mem_filter.mp hp).1
      exact (g.admitted p hproductive.1).imp fun c _ => mem_variables_of_mem_reached }

end LanguageTheory.Grammar
