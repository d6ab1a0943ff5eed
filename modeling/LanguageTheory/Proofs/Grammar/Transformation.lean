import LanguageTheory.Grammar.Outline
import LanguageTheory.Proofs.Grammar.Decision
import LanguageTheory.Proofs.Grammar.EmptyWord
import LanguageTheory.Proofs.Grammar.Reversal

/-!
# Runs of transformations

Grammars are checked when they are described and never again. Whatever transformations follow, in
whatever order, a grammar would still pass the check on its own sets (`ofSets_self`), and only a
grammar in normal form accepts the empty word without deriving it (`FlagSound.transform`).
-/

namespace LanguageTheory.Grammar

variable {g h : Grammar} {p : Production}

/-! ## Transformations -/

/-- A way to make a grammar of another one. -/
inductive Transformation where
  | removeUseless
  | removeLambda
  | removeUnit
  | addEmptyWord
  | toChomskyForm
  | reversed
deriving DecidableEq

/-- What a transformation makes of a grammar, if it does not fail. -/
def apply (g : Grammar) : Transformation → Except GrammarFault Grammar
  | .removeUseless => .ok g.removeUseless
  | .removeLambda => .ok g.removeLambda
  | .removeUnit => .ok g.removeUnit
  | .addEmptyWord => g.addEmptyWord
  | .toChomskyForm => g.toChomskyForm
  | .reversed => .ok g.reversed

/-- One transformation after the other, up to the first that fails. -/
def transform (g : Grammar) (steps : List Transformation) : Except GrammarFault Grammar :=
  steps.foldlM apply g

/-- A grammar that was described, by its sets or by an outline, and passed the check. -/
inductive Described : Grammar → Prop
  | ofSets {terminals vars : SortedSet Char} {productions : SortedSet Production} {start : Char}
      {kind : Kind} {g : Grammar} :
      Grammar.ofSets terminals vars productions start kind = .ok g → Described g
  | build {o : Outline} {g : Grammar} : o.build = .ok g → Described g

/-! ## The check -/

/-- Every grammar passes the check on its own sets. -/
theorem ofSets_self (g : Grammar) :
    ofSets g.terminals g.vars g.productions g.start g.kind =
      .ok { g with acceptsEmpty := false } :=
  ofSets_eq_ok_iff.mpr ⟨rfl, rfl, rfl, rfl, rfl, rfl⟩

theorem acceptsEmpty_of_ofSets {terminals vars : SortedSet Char}
    {productions : SortedSet Production} {start : Char} {kind : Kind}
    (h : ofSets terminals vars productions start kind = .ok g) : g.acceptsEmpty = false :=
  (ofSets_eq_ok_iff.mp h).2.2.2.2.2

/-! ## The empty word -/

/-- The empty word is accepted on its own only in normal form, where no production derives it. -/
def FlagSound (g : Grammar) : Prop := g.acceptsEmpty → g.isChomskyForm

theorem Described.flagSound (hg : Described g) : g.FlagSound := by
  have hflag : g.acceptsEmpty = false := by
    cases hg with
    | ofSets h => exact acceptsEmpty_of_ofSets h
    | build h => exact acceptsEmpty_of_ofSets h
  intro htrue
  rw [hflag] at htrue
  cases htrue

theorem isNormal_of_removeUseless (hp : p ∈ g.removeUseless.productions) (hnormal : g.isNormal p) :
    g.removeUseless.isNormal p := by
  have hkept : ∀ c ∈ p.rhs, c ∈ g.vars → c ∈ g.removeUseless.vars :=
    fun c hc hvar => mem_vars_removeUseless hp hc hvar
  rw [isNormal_iff] at hnormal ⊢
  rcases hnormal with ⟨d, hd, hrhs⟩ | ⟨a, ha, b, hb, hrhs⟩
  · exact .inl ⟨d, fun hvar => hd (mem_variables_of_mem_reached hvar), hrhs⟩
  · rw [hrhs] at hkept
    have hb' := hkept b (List.mem_cons_of_mem a (List.mem_singleton_self b)) hb
    exact .inr ⟨a, hkept a List.mem_cons_self ha, b, hb', hrhs⟩

theorem isChomskyForm_removeUseless (hform : g.isChomskyForm) : g.removeUseless.isChomskyForm := by
  rw [isChomskyForm_iff] at hform ⊢
  intro p hp
  have hproductive := (SortedSet.mem_filter.mp hp).1
  exact isNormal_of_removeUseless hp (hform p (mem_productive.mp hproductive).1)

theorem isChomskyForm_removeUnit (hform : g.isChomskyForm) : g.removeUnit.isChomskyForm := by
  rw [isChomskyForm_iff] at hform ⊢
  intro p hp
  obtain ⟨_, d, _, hold, _⟩ := mem_unitFreeProductions.mp hp
  -- the form is about the right-hand side alone, which is copied as it is
  exact hform ⟨d, p.rhs⟩ hold

theorem acceptsEmpty_of_addEmptyWord (happly : g.addEmptyWord = .ok h) :
    h.acceptsEmpty = false := by
  obtain ⟨_, _, _, rfl⟩ := exists_withStart_of_addEmptyWord happly
  rfl

/-- A transformation carries the flag with the form, or clears it. -/
theorem FlagSound.apply (hg : g.FlagSound) {step : Transformation} (happly : g.apply step = .ok h) :
    h.FlagSound := by
  intro hflag
  cases step with
  | removeUseless =>
      cases happly
      exact isChomskyForm_removeUseless (hg hflag)
  | removeLambda =>
      cases happly
      cases hflag
  | removeUnit =>
      cases happly
      exact isChomskyForm_removeUnit (hg hflag)
  | addEmptyWord =>
      rw [acceptsEmpty_of_addEmptyWord happly] at hflag
      cases hflag
  | toChomskyForm => exact (toChomskyForm_spec happly).1
  | reversed =>
      cases happly
      exact isChomskyForm_reversed (hg hflag)

theorem FlagSound.transform (hg : g.FlagSound) {steps : List Transformation}
    (hrun : g.transform steps = .ok h) : h.FlagSound := by
  induction steps generalizing g with
  | nil =>
      cases hrun
      exact hg
  | cons step steps ih =>
      rw [Grammar.transform, List.foldlM_cons] at hrun
      cases happly : g.apply step with
      | error fault =>
          rw [happly] at hrun
          cases hrun
      | ok next =>
          rw [happly] at hrun
          exact ih (hg.apply happly) hrun

/-! ## Runs -/

/-- After any run of transformations the sets of a grammar are as the check demands, so that they
pass it again, and only a grammar in normal form accepts the empty word without deriving it. -/
theorem transform_valid (hg : Described g) {steps : List Transformation}
    (hrun : g.transform steps = .ok h) :
    (∀ c ∈ h.terminals, c ∉ h.vars) ∧ h.start ∈ h.vars ∧
      (∀ p ∈ h.productions, p.lhs ∈ h.vars ∧ (∀ c ∈ p.rhs, c ∈ h.vars ∨ c ∈ h.terminals) ∧
        h.kind.Admits h.vars p.rhs) ∧
      ofSets h.terminals h.vars h.productions h.start h.kind =
        .ok { h with acceptsEmpty := false } ∧
      (h.acceptsEmpty → h.isChomskyForm ∧ ∀ p ∈ h.productions, p.rhs ≠ []) := by
  refine ⟨h.disjoint, h.start_mem, ?_, h.ofSets_self, ?_⟩
  · intro p hp
    exact ⟨h.lhs_mem p hp, h.rhs_mem p hp, h.admitted p hp⟩
  · intro hflag
    have hform := hg.flagSound.transform hrun hflag
    exact ⟨hform, fun p hp => ne_nil_of_isNormal (isChomskyForm_iff.mp hform p hp)⟩

theorem transform_valid_nested : Described nested ∧
    ∃ h, nested.transform [.toChomskyForm, .reversed, .removeUnit, .removeUseless] = .ok h ∧
      h.acceptsEmpty ∧ h.isChomskyForm ∧
        ofSets h.terminals h.vars h.productions h.start h.kind =
          .ok { h with acceptsEmpty := false } := by
  have hdescribed : Described nested := .ofSets nested.ofSets_self
  obtain ⟨normal, hnormal⟩ := exists_toChomskyForm_nested
  have hflag : normal.acceptsEmpty :=
    (toChomskyForm_spec hnormal).2.2.1.mpr (.inr yields_nested_nil)
  have hrun : nested.transform [.toChomskyForm, .reversed, .removeUnit, .removeUseless] =
      .ok normal.reversed.removeUnit.removeUseless := by
    simp only [transform, List.foldlM_cons, apply, hnormal]
    rfl
  obtain ⟨_, _, _, hcheck, hform⟩ := transform_valid hdescribed hrun
  exact ⟨hdescribed, _, hrun, hflag, (hform hflag).1, hcheck⟩

end LanguageTheory.Grammar
