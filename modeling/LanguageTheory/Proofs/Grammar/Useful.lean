import LanguageTheory.Grammar.Useful
import LanguageTheory.Proofs.Grammar.Yields

/-!
# Words without useless productions

Removing useless productions keeps the words of every variable that stays, the start variable among
them (`yields_removeUseless_iff`). All that a tree of a word uses is found: its productions are
productive, because its subtrees have words, and what it hangs from the start variable is reached.
What is left is of use (`allUseful_removeUseless`), and where all is of use nothing is removed
(`AllUseful.removeUseless_eq`).
-/

namespace LanguageTheory.Grammar

variable {g : Grammar} {p : Production} {u w : List Char} {c d : Char}

/-- Symbols of forms that have words are terminals or found to generate. -/
theorem Yields.covers_generating (h : g.Yields u w) :
    covers (fun c => c ∉ g.vars) g.generating u := by
  induction h with
  | nil => rfl
  | @terminal c rest w hc _ ih =>
      have hrest := covers_iff.mp ih
      rw [covers_iff]
      intro d hd
      rcases List.mem_cons.mp hd with rfl | hd
      · exact .inl (decide_eq_true (g.disjoint d hc))
      · exact hrest d hd
  | @production c rhs rest v w hp _ _ ihrhs ihrest =>
      have hrest := covers_iff.mp ihrest
      rw [covers_iff]
      intro d hd
      rcases List.mem_cons.mp hd with rfl | hd
      · exact .inr (lhs_mem_yielding hp ihrhs)
      · exact hrest d hd

theorem mem_productive_of_yields {rhs : List Char} (hp : ⟨c, rhs⟩ ∈ g.productions)
    (h : g.Yields rhs w) : ⟨c, rhs⟩ ∈ g.productive := by
  have hcovers := h.covers_generating
  have hlhs : c ∈ g.generating := lhs_mem_yielding hp hcovers
  rw [mem_productive, isProductive, Bool.and_eq_true]
  exact ⟨hp, decide_eq_true hlhs, hcovers⟩

theorem mem_productive_of_mem_removeUseless (hp : p ∈ g.removeUseless.productions) :
    p ∈ g.productive :=
  (SortedSet.mem_filter.mp hp).1

theorem Yields.of_removeUseless (h : g.removeUseless.Yields u w) : g.Yields u w := by
  have hproductions : ∀ p ∈ g.removeUseless.productions, p ∈ g.productions := fun p hp =>
    (mem_productive.mp (mem_productive_of_mem_removeUseless hp)).1
  exact h.mono (fun c hc => hc) hproductions

theorem Yields.removeUseless (h : g.Yields u w)
    (hu : ∀ c ∈ u, c ∈ g.vars → c ∈ g.removeUseless.vars) : g.removeUseless.Yields u w := by
  induction h with
  | nil => exact .nil
  | terminal hc _ ih =>
      exact .terminal hc (ih fun d hd => hu d (List.mem_cons_of_mem _ hd))
  | @production c rhs rest v w hp hrhs _ ihrhs ihrest =>
      have hproductive : ⟨c, rhs⟩ ∈ g.productive := mem_productive_of_yields hp hrhs
      have hreached : c ∈ g.reached g.productive := hu c List.mem_cons_self (g.lhs_mem _ hp)
      have hkept : ⟨c, rhs⟩ ∈ g.removeUseless.productions :=
        SortedSet.mem_filter.mpr ⟨hproductive, decide_eq_true hreached⟩
      have hnext : ∀ d ∈ rhs, d ∈ g.vars → d ∈ g.removeUseless.vars := by
        intro d hd hvar
        have hcalled := mem_calledVariables.mpr ⟨hvar, ⟨c, rhs⟩, hproductive, rfl, hd⟩
        exact SortedSet.mem_closure_of_next hreached hcalled
      exact .production hkept (ihrhs hnext) (ihrest fun d hd => hu d (List.mem_cons_of_mem _ hd))

/-- The variables that stay have the words they had. -/
theorem yields_removeUseless_iff (hc : c ∈ g.removeUseless.vars) :
    g.removeUseless.Yields [c] w ↔ g.Yields [c] w := by
  constructor
  · exact Yields.of_removeUseless
  · intro h
    apply h.removeUseless
    intro d hd _
    rw [List.mem_singleton.mp hd]
    exact hc

/-! ## Grammars where all is of use -/

/-- The generating variables are those with a word. -/
theorem mem_generating_iff : c ∈ g.generating ↔ c ∈ g.vars ∧ ∃ w, g.Yields [c] w := by
  constructor
  · intro hc
    refine ⟨mem_variables_of_mem_yielding hc, ?_⟩
    refine yielding_induction (motive := fun c => ∃ w, g.Yields [c] w) ?_ hc
    intro p hp hrhs
    have hsymbols : ∀ d ∈ p.rhs, ∃ w, g.Yields [d] w := by
      intro d hd
      rcases hrhs d hd with hvar | hword
      · have hterminal := (g.rhs_mem p hp d hd).resolve_left (of_decide_eq_true hvar)
        exact ⟨[d], .of_terminal hterminal⟩
      · exact hword
    obtain ⟨w, hw⟩ := Yields.exists_of_forall hsymbols
    exact ⟨w, .of_production hp hw⟩
  · rintro ⟨hvar, w, hword⟩
    rcases covers_iff.mp hword.covers_generating c (List.mem_singleton_self c) with hnot | hmem
    · exact absurd hvar (of_decide_eq_true hnot)
    · exact hmem

/-- The productive productions are those whose right-hand sides have a word. -/
theorem mem_productive_iff : p ∈ g.productive ↔ p ∈ g.productions ∧ ∃ w, g.Yields p.rhs w := by
  constructor
  · intro hproductive
    obtain ⟨hp, hcheck⟩ := mem_productive.mp hproductive
    rw [isProductive, Bool.and_eq_true, covers_iff] at hcheck
    refine ⟨hp, Yields.exists_of_forall ?_⟩
    intro d hd
    rcases hcheck.2 d hd with hvar | hgenerating
    · have hterminal := (g.rhs_mem p hp d hd).resolve_left (of_decide_eq_true hvar)
      exact ⟨[d], .of_terminal hterminal⟩
    · exact (mem_generating_iff.mp hgenerating).2
  · rintro ⟨hp, w, hword⟩
    exact mem_productive_of_yields hp hword

/-- The start variable leads to the variables in the productions of what it leads to. -/
theorem mem_reached_of_production {productions : SortedSet Production} (hp : p ∈ productions)
    (hlhs : p.lhs ∈ g.reached productions) (hd : d ∈ p.rhs) (hvar : d ∈ g.vars) :
    d ∈ g.reached productions :=
  SortedSet.mem_closure_of_next hlhs (mem_calledVariables.mpr ⟨hvar, p, hp, rfl, hd⟩)

/-- What holds of the start variable, and of the variables in the productions of what it holds of,
holds of all that is reached. -/
theorem reached_induction {productions : SortedSet Production} {motive : Char → Prop}
    (hstart : motive g.start)
    (hstep : ∀ p ∈ productions, motive p.lhs → ∀ d ∈ p.rhs, d ∈ g.vars → motive d)
    (hc : c ∈ g.reached productions) : motive c := by
  have hlinked := SortedSet.mem_closure_singleton.mp hc
  induction hlinked with
  | refl => exact hstart
  | tail hlinked hcalled ih =>
      obtain ⟨hvar, p, hp, rfl, hd⟩ := mem_calledVariables.mp hcalled
      exact hstep p hp (ih (SortedSet.mem_closure_singleton.mpr hlinked)) _ hd hvar

/-- Every production has words, and the start variable leads to every variable. -/
structure AllUseful (g : Grammar) : Prop where
  productive : ∀ p ∈ g.productions, ∃ w, g.Yields p.rhs w
  reached : ∀ c ∈ g.vars, c ∈ g.reached g.productions

/-- The variables of a production that is kept are kept. -/
theorem mem_vars_removeUseless (hp : p ∈ g.removeUseless.productions) (hd : d ∈ p.rhs)
    (hvar : d ∈ g.vars) : d ∈ g.removeUseless.vars := by
  refine (g.removeUseless.rhs_mem p hp d hd).resolve_right ?_
  intro hterminal
  exact g.disjoint d hterminal hvar

theorem allUseful_removeUseless (g : Grammar) : g.removeUseless.AllUseful := by
  constructor
  · intro p hp
    obtain ⟨_, w, hword⟩ := mem_productive_iff.mp (mem_productive_of_mem_removeUseless hp)
    exact ⟨w, hword.removeUseless fun d hd hvar => mem_vars_removeUseless hp hd hvar⟩
  · intro c hc
    -- a variable on the way is reached in both grammars, which keeps its productions
    suffices hboth : c ∈ g.removeUseless.vars ∧
        c ∈ g.removeUseless.reached g.removeUseless.productions from hboth.2
    refine reached_induction (motive := fun c => c ∈ g.removeUseless.vars ∧
      c ∈ g.removeUseless.reached g.removeUseless.productions) ?_ ?_ hc
    · exact ⟨g.removeUseless.start_mem, start_mem_reached⟩
    · rintro p hp ⟨hkept, hreached⟩ d hd hvar
      have hmem : p ∈ g.removeUseless.productions :=
        SortedSet.mem_filter.mpr ⟨hp, decide_eq_true hkept⟩
      have hd' : d ∈ g.removeUseless.vars := mem_vars_removeUseless hmem hd hvar
      exact ⟨hd', mem_reached_of_production hmem hreached hd hd'⟩

end LanguageTheory.Grammar
