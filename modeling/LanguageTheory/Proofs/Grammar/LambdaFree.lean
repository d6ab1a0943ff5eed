import LanguageTheory.Grammar.LambdaFree
import LanguageTheory.Proofs.Grammar.Yields

/-!
# Words without empty productions

Removing empty productions keeps the words of every variable but for the empty one
(`yields_removeLambda_iff`). A tree loses its empty subtrees: what they stand under are occurrences
of vanishing variables, and deleting just those is one of the variants. The productions that are left
are all that deleting such occurrences makes of the old ones, and no others (`removeLambda_exact`).
-/

namespace LanguageTheory.Grammar

variable {g : Grammar} {u v w : List Char} {c : Char}

/-! ## Vanishing variables -/

theorem Yields.nil_of_forall (h : ∀ c ∈ u, g.Yields [c] []) : g.Yields u [] := by
  induction u with
  | nil => exact .nil
  | cons c u ih =>
      have hhead : g.Yields [c] [] := h c List.mem_cons_self
      have htail : g.Yields u [] := ih fun d hd => h d (List.mem_cons_of_mem c hd)
      exact hhead.append htail

theorem Yields.forall_mem_nullable (h : g.Yields u w) (hw : w = []) : ∀ c ∈ u, c ∈ g.nullable := by
  induction h with
  | nil =>
      intro c hc
      exact absurd hc List.not_mem_nil
  | terminal => cases hw
  | @production c rhs rest v w hp _ _ ihrhs ihrest =>
      obtain ⟨hv, hw⟩ := List.append_eq_nil_iff.mp hw
      have hcovers : covers (fun _ => false) g.nullable rhs :=
        covers_iff.mpr fun d hd => .inr (ihrhs hv d hd)
      intro d hd
      rcases List.mem_cons.mp hd with rfl | hd
      · exact lhs_mem_yielding hp hcovers
      · exact ihrest hw d hd

/-- The vanishing variables are those with the empty word. -/
theorem mem_nullable_iff : c ∈ g.nullable ↔ g.Yields [c] [] := by
  constructor
  · intro hc
    refine yielding_induction (motive := fun c => g.Yields [c] []) ?_ hc
    intro p hp hrhs
    apply Yields.of_production hp
    apply Yields.nil_of_forall
    intro d hd
    exact (hrhs d hd).resolve_left Bool.false_ne_true
  · intro h
    exact h.forall_mem_nullable rfl c (List.mem_singleton_self c)

/-! ## Variants -/

/-- Some occurrences are deleted, each of a symbol that may be; all others are kept, in their order. -/
inductive Deletes (deletable : Char → Prop) : List Char → List Char → Prop
  | nil : Deletes deletable [] []
  | keep {c : Char} {u v : List Char} :
      Deletes deletable u v → Deletes deletable (c :: u) (c :: v)
  | delete {c : Char} {u v : List Char} :
      deletable c → Deletes deletable u v → Deletes deletable (c :: u) v

theorem mem_variants_cons_iff {deletable : SortedSet Char} : v ∈ variants deletable (c :: u) ↔
    c ∈ deletable ∧ v ∈ variants deletable u ∨ ∃ rest ∈ variants deletable u, c :: rest = v := by
  simp only [variants]
  split
  next hc => rw [List.mem_append, List.mem_map, and_iff_right hc]
  next hc => rw [List.mem_map, or_iff_right fun h => hc h.1]

/-- The variants are what deleting occurrences can leave. -/
theorem mem_variants_iff {deletable : SortedSet Char} :
    v ∈ variants deletable u ↔ Deletes (· ∈ deletable) u v := by
  constructor
  · intro hv
    induction u generalizing v with
    | nil =>
        rw [List.mem_singleton.mp hv]
        exact .nil
    | cons c u ih =>
        rcases mem_variants_cons_iff.mp hv with ⟨hc, hdeleted⟩ | ⟨rest, hrest, rfl⟩
        · exact .delete hc (ih hdeleted)
        · exact .keep (ih hrest)
  · intro hdeletes
    induction hdeletes with
    | nil => exact List.mem_singleton_self []
    | keep _ ih => exact mem_variants_cons_iff.mpr (.inr ⟨_, ih, rfl⟩)
    | delete hc _ ih => exact mem_variants_cons_iff.mpr (.inl ⟨hc, ih⟩)

/-- Vanishing variables may be put back. -/
theorem Yields.of_deletes (hdeletes : Deletes (· ∈ g.nullable) u v) (h : g.Yields v w) :
    g.Yields u w := by
  induction hdeletes generalizing w with
  | nil => exact h
  | keep _ ih =>
      cases h with
      | terminal hc hrest => exact .terminal hc (ih hrest)
      | production hp hrhs hrest => exact .production hp hrhs (ih hrest)
  | delete hc _ ih => exact (mem_nullable_iff.mp hc).append (ih h)

/-- Every word of a form is one of a variant without empty productions. -/
theorem Yields.exists_deletes (h : g.Yields u w) :
    ∃ v, Deletes (· ∈ g.nullable) u v ∧ g.removeLambda.Yields v w := by
  induction h with
  | nil => exact ⟨[], .nil, .nil⟩
  | terminal hc _ ih =>
      obtain ⟨v, hv, hyields⟩ := ih
      exact ⟨_ :: v, .keep hv, .terminal hc hyields⟩
  | @production c rhs rest v w hp hrhs _ ihrhs ihrest =>
      obtain ⟨shorter, hshorter, hrest⟩ := ihrest
      -- an occurrence with the empty word is deleted, any other one keeps a variant of its own
      by_cases hempty : v = []
      · subst hempty
        have hc : c ∈ g.nullable := mem_nullable_iff.mpr (.of_production hp hrhs)
        exact ⟨shorter, .delete hc hshorter, hrest⟩
      · obtain ⟨variant, hvariant, hyields⟩ := ihrhs
        have hne : variant ≠ [] := by
          intro h
          subst h
          cases hyields
          exact hempty rfl
        have hmem : ⟨c, variant⟩ ∈ g.removeLambda.productions :=
          mem_lambdaFreeProductions.mpr ⟨_, hp, rfl, mem_variants_iff.mpr hvariant, hne⟩
        exact ⟨c :: shorter, .keep hshorter, .production hmem hyields hrest⟩

/-! ## Words -/

theorem Yields.of_removeLambda (h : g.removeLambda.Yields u w) : g.Yields u w := by
  induction h with
  | nil => exact .nil
  | terminal hc _ ih => exact .terminal hc ih
  | production hp _ _ ihrhs ihrest =>
      obtain ⟨⟨lhs, rhs⟩, hold, rfl, hvariant, _⟩ := mem_lambdaFreeProductions.mp hp
      exact .production hold (.of_deletes (mem_variants_iff.mp hvariant) ihrhs) ihrest

theorem ne_nil_of_mem_removeLambda {p : Production} (hp : p ∈ g.removeLambda.productions) :
    p.rhs ≠ [] := by
  obtain ⟨_, _, _, _, hne⟩ := mem_lambdaFreeProductions.mp hp
  exact hne

theorem Yields.ne_nil_of_removeLambda (h : g.removeLambda.Yields u w) (hu : u ≠ []) : w ≠ [] := by
  induction h with
  | nil => exact hu
  | terminal => exact List.cons_ne_nil _ _
  | production hp _ _ ihrhs _ =>
      exact List.append_ne_nil_of_left_ne_nil (ihrhs (ne_nil_of_mem_removeLambda hp)) _

/-- Without empty productions a variable has its words but the empty one. -/
theorem yields_removeLambda_iff : g.removeLambda.Yields [c] w ↔ g.Yields [c] w ∧ w ≠ [] := by
  constructor
  · intro h
    exact ⟨h.of_removeLambda, h.ne_nil_of_removeLambda (List.cons_ne_nil c [])⟩
  · rintro ⟨h, hw⟩
    obtain ⟨v, hv, hyields⟩ := h.exists_deletes
    cases hv with
    | keep hnil =>
        cases hnil
        exact hyields
    | delete _ hnil =>
        -- nothing is left, which has no word but the empty one
        cases hnil
        cases hyields
        exact absurd rfl hw

/-! ## Exactness -/

/-- A vanishing variable derives the empty word. -/
theorem mem_nullable_iff_derives : c ∈ g.nullable ↔ c ∈ g.vars ∧ g.Derives [c] [] := by
  constructor
  · intro hc
    exact ⟨mem_variables_of_mem_yielding hc, (mem_nullable_iff.mp hc).derives⟩
  · intro hc
    have hterminal : g.IsTerminal [] := fun d hd => absurd hd List.not_mem_nil
    exact mem_nullable_iff.mpr (yields_iff.mpr ⟨hterminal, hc.2⟩)

/-- No production is left empty. The productions are what deleting occurrences of variables that derive
the empty word makes of the old ones, in every way that leaves something, and nothing else. Every
variable keeps its words but the empty one. -/
theorem removeLambda_exact (g : Grammar) :
    (∀ p ∈ g.removeLambda.productions, p.rhs ≠ []) ∧
      (∀ p, p ∈ g.removeLambda.productions ↔ ∃ q ∈ g.productions, p.lhs = q.lhs ∧
        Deletes (fun c => c ∈ g.vars ∧ g.Derives [c] []) q.rhs p.rhs ∧ p.rhs ≠ []) ∧
      ∀ c w, g.removeLambda.Generates c w ↔ g.Generates c w ∧ w ≠ [] := by
  refine ⟨fun p => ne_nil_of_mem_removeLambda, ?_, ?_⟩
  · intro p
    have hmem : p ∈ g.removeLambda.productions ↔ p ∈ g.lambdaFreeProductions := Iff.rfl
    simp only [hmem, mem_lambdaFreeProductions, mem_variants_iff, mem_nullable_iff_derives]
  · intro c w
    rw [Generates, Generates, ← yields_iff, ← yields_iff]
    exact yields_removeLambda_iff

/-- The grammar of `S -> AbA` and `A -> a | λ`. -/
def sandwich : Grammar where
  terminals := .ofList ['a', 'b']
  vars := .ofList ['S', 'A']
  productions := .ofList [⟨'S', ['A', 'b', 'A']⟩, ⟨'A', ['a']⟩, ⟨'A', []⟩]
  start := 'S'
  kind := .contextFree
  acceptsEmpty := false
  start_mem := by decide
  disjoint := by simp [SortedSet.mem_ofList]
  lhs_mem := by decide
  rhs_mem := by simp [SortedSet.mem_ofList]
  admitted := by decide

theorem removeLambda_exact_sandwich : ⟨'A', []⟩ ∉ sandwich.removeLambda.productions ∧
    ⟨'S', ['b', 'A']⟩ ∈ sandwich.removeLambda.productions ∧
      sandwich.removeLambda.Generates 'S' ['b'] ∧ ¬ sandwich.removeLambda.Generates 'A' [] := by
  obtain ⟨hne, hproductions, hwords⟩ := removeLambda_exact sandwich
  have hold : ⟨'S', ['A', 'b', 'A']⟩ ∈ sandwich.productions := by decide
  have hvanishes : sandwich.Yields ['A'] [] :=
    .of_production (by decide : ⟨'A', []⟩ ∈ sandwich.productions) .nil
  have hword : sandwich.Yields ['S'] ['b'] :=
    .of_production hold (hvanishes.append (.terminal (by decide) hvanishes))
  have hderives : 'A' ∈ sandwich.vars ∧ sandwich.Derives ['A'] [] := ⟨by decide, hvanishes.derives⟩
  refine ⟨?_, ?_, ?_, ?_⟩
  · intro hempty
    exact hne _ hempty rfl
  · refine (hproductions _).mpr ⟨_, hold, rfl, ?_, List.cons_ne_nil _ _⟩
    exact .delete hderives (.keep (.keep .nil))
  · exact (hwords 'S' ['b']).mpr ⟨yields_iff.mp hword, List.cons_ne_nil _ _⟩
  · intro hgenerates
    exact ((hwords 'A' []).mp hgenerates).2 rfl

end LanguageTheory.Grammar
