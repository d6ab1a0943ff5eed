import LanguageTheory.Grammar.FreshNames

/-!
# Adding the empty word

A new start variable derives the empty word or the former start variable.
-/

namespace LanguageTheory.Grammar

/-- The grammar with a start variable of the given fresh name. -/
def withStart (g : Grammar) (name : Char) (hterminal : name ∉ g.terminals)
    (hvariable : name ∉ g.vars) : Grammar :=
  { g with
    vars := insert name g.vars
    productions := insert ⟨name, []⟩ (insert ⟨name, [g.start]⟩ g.productions)
    start := name
    acceptsEmpty := false
    start_mem := SortedSet.mem_insert.mpr (.inl rfl)
    disjoint := fun c hc hvar => by
      rcases SortedSet.mem_insert.mp hvar with rfl | hold
      · exact hterminal hc
      · exact g.disjoint c hc hold
    lhs_mem := fun p hp => by
      simp only [SortedSet.mem_insert] at hp ⊢
      rcases hp with rfl | rfl | hold
      · exact .inl rfl
      · exact .inl rfl
      · exact .inr (g.lhs_mem p hold)
    rhs_mem := fun p hp c hc => by
      simp only [SortedSet.mem_insert] at hp ⊢
      rcases hp with rfl | rfl | hold
      · exact absurd hc List.not_mem_nil
      · exact .inl (.inr (List.mem_singleton.mp hc ▸ g.start_mem))
      · exact (g.rhs_mem p hold c hc).imp_left .inr
    admitted := fun p hp => by
      simp only [SortedSet.mem_insert] at hp
      rcases hp with rfl | rfl | hold
      · exact Kind.admits_of_length_le (Nat.zero_le 1)
      · exact Kind.admits_of_length_le (Nat.le_refl 1)
      · refine (g.admitted p hold).imp fun c hc hvar => ?_
        rcases SortedSet.mem_insert.mp hvar with rfl | hold'
        · rcases g.rhs_mem p hold c hc with h | h
          · exact absurd h hvariable
          · exact absurd h hterminal
        · exact hold' }

/-- A grammar of the same words and the empty one, if there is a free name for its start. -/
def addEmptyWord (g : Grammar) : Except GrammarFault Grammar :=
  match hnames : g.unusedNames with
  | [] => .error .variablesExhausted
  | name :: _ =>
      have hunused := mem_unusedNames.mp (hnames ▸ List.mem_cons_self)
      .ok (g.withStart name hunused.2.1 hunused.2.2)

end LanguageTheory.Grammar
