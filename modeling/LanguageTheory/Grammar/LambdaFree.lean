import LanguageTheory.Grammar.Yield

/-!
# Removal of empty productions

Every production is replaced by its variants with some occurrences of vanishing variables deleted,
and empty variants are dropped. The words stay the same but for the empty one.
-/

namespace LanguageTheory.Grammar

/-- The lists left when any occurrences of the given symbols are deleted. -/
def variants (deletable : SortedSet Char) : List Char → List (List Char)
  | [] => [[]]
  | c :: rest =>
      let kept := (variants deletable rest).map (c :: ·)
      if c ∈ deletable then variants deletable rest ++ kept else kept

theorem sublist_of_mem_variants {deletable : SortedSet Char} {symbols variant : List Char}
    (h : variant ∈ variants deletable symbols) : variant.Sublist symbols := by
  induction symbols generalizing variant with
  | nil =>
      obtain rfl := List.mem_singleton.mp h
      exact .slnil
  | cons c rest ih =>
      simp only [variants] at h
      split at h
      next =>
        rcases List.mem_append.mp h with hdeleted | hkept
        · exact (ih hdeleted).cons c
        · obtain ⟨shorter, hshorter, rfl⟩ := List.mem_map.mp hkept
          exact (ih hshorter).cons_cons c
      next =>
        obtain ⟨shorter, hshorter, rfl⟩ := List.mem_map.mp h
        exact (ih hshorter).cons_cons c

/-- The variants of a production that are not empty. -/
def lambdaFreeVariants (deletable : SortedSet Char) (p : Production) : List Production :=
  ((variants deletable p.rhs).filter (· ≠ [])).map fun rhs => ⟨p.lhs, rhs⟩

theorem mem_lambdaFreeVariants {deletable : SortedSet Char} {p q : Production} :
    q ∈ lambdaFreeVariants deletable p ↔
      q.lhs = p.lhs ∧ q.rhs ∈ variants deletable p.rhs ∧ q.rhs ≠ [] := by
  cases q
  simp only [lambdaFreeVariants, List.mem_map, List.mem_filter, decide_eq_true_eq,
    Production.mk.injEq]
  constructor
  · rintro ⟨rhs, ⟨hmem, hne⟩, rfl, rfl⟩
    exact ⟨rfl, hmem, hne⟩
  · rintro ⟨rfl, hmem, hne⟩
    exact ⟨_, ⟨hmem, hne⟩, rfl, rfl⟩

/-- The productions without the empty ones, with the variants that make up for them. -/
def lambdaFreeProductions (g : Grammar) : SortedSet Production :=
  .ofList (g.productions.toList.flatMap (lambdaFreeVariants g.nullable))

theorem mem_lambdaFreeProductions {g : Grammar} {q : Production} :
    q ∈ g.lambdaFreeProductions ↔
      ∃ p ∈ g.productions, q.lhs = p.lhs ∧ q.rhs ∈ variants g.nullable p.rhs ∧ q.rhs ≠ [] := by
  simp [lambdaFreeProductions, mem_lambdaFreeVariants, SortedSet.mem_toList]

/-- A grammar of the same words but the empty one, without empty productions. -/
def removeLambda (g : Grammar) : Grammar :=
  { g with
    productions := g.lambdaFreeProductions
    acceptsEmpty := false
    lhs_mem := fun q hq => by
      obtain ⟨p, hp, hlhs, _⟩ := mem_lambdaFreeProductions.mp hq
      exact hlhs ▸ g.lhs_mem p hp
    rhs_mem := fun q hq c hc => by
      obtain ⟨p, hp, _, hvariant, _⟩ := mem_lambdaFreeProductions.mp hq
      exact g.rhs_mem p hp c ((sublist_of_mem_variants hvariant).subset hc)
    admitted := fun q hq => by
      obtain ⟨p, hp, _, hvariant, _⟩ := mem_lambdaFreeProductions.mp hq
      exact (g.admitted p hp).sublist (sublist_of_mem_variants hvariant) }

end LanguageTheory.Grammar
