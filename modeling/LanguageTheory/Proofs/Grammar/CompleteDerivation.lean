import LanguageTheory.Proofs.Grammar.Useful

/-!
# Complete derivations

A complete derivation leads from the start variable to a word of terminals. It applies productions
one after the other, in whatever order, and goes through the forms that they leave. Removing useless
productions keeps exactly what such derivations use (`removeUseless_exact`). A form on the way is
one that the start variable leads to and that has a word itself; so its variables are found both
generating and reached, and the other way round a reached variable has such a form around it.
-/

namespace LanguageTheory.Grammar

variable {g : Grammar} {p : Production} {u v w : List Char} {c : Char}

/-! ## Steps -/

/-- A production between what stands before and after the place where it is applied. -/
structure Application where
  before : List Char
  production : Production
  after : List Char

namespace Application

/-- The form that the production is applied to. -/
def source (a : Application) : List Char := a.before ++ a.production.lhs :: a.after

/-- The form that it leaves. -/
def target (a : Application) : List Char := a.before ++ a.production.rhs ++ a.after

theorem step {a : Application} (ha : a.production ∈ g.productions) : g.Step a.source a.target :=
  .apply a.before a.after ha

end Application

variable {a : Application} {steps others : List Application}

/-- A derivation by given steps, each of which is applied to the form that the one before it
leaves. -/
inductive DerivesBy (g : Grammar) : List Char → List Application → List Char → Prop
  | nil {u : List Char} : DerivesBy g u [] u
  | cons {u w : List Char} {a : Application} {steps : List Application} :
      u = a.source → a.production ∈ g.productions → DerivesBy g a.target steps w →
        DerivesBy g u (a :: steps) w

namespace DerivesBy

theorem append (huv : g.DerivesBy u steps v) (hvw : g.DerivesBy v others w) :
    g.DerivesBy u (steps ++ others) w := by
  induction huv with
  | nil => exact hvw
  | cons hsource hp _ ih => exact .cons hsource hp (ih hvw)

theorem derives (h : g.DerivesBy u steps w) : g.Derives u w := by
  induction h with
  | nil => exact .refl _
  | @cons u w a steps hsource hp _ ih =>
      subst hsource
      exact (a.step hp).derives.trans ih

/-- The steps before and after one of the steps. -/
theorem of_mem (h : g.DerivesBy u steps w) (ha : a ∈ steps) :
    a.production ∈ g.productions ∧ g.Derives u a.source ∧ g.Derives a.target w := by
  induction h with
  | nil => exact absurd ha List.not_mem_nil
  | @cons u w first steps hsource hp hrest ih =>
      subst hsource
      rcases List.mem_cons.mp ha with rfl | ha
      · exact ⟨hp, .refl _, hrest.derives⟩
      · obtain ⟨hmem, hbefore, hafter⟩ := ih ha
        exact ⟨hmem, (first.step hp).derives.trans hbefore, hafter⟩

/-- The steps end with the form that the last of them leaves. -/
theorem mem_forms (h : g.DerivesBy u steps w) : w ∈ u :: steps.map Application.target := by
  induction h with
  | nil => exact List.mem_cons_self
  | cons _ _ _ ih => exact List.mem_cons_of_mem _ ih

/-- The form between two rows of steps is met by both in a row. -/
theorem mem_forms_append (h : g.DerivesBy u steps v) :
    v ∈ u :: (steps ++ others).map Application.target := by
  have hmem := List.mem_append_left (others.map Application.target) h.mem_forms
  rwa [List.cons_append, ← List.map_append] at hmem

end DerivesBy

theorem exists_derivesBy (h : g.Derives u w) : ∃ steps, g.DerivesBy u steps w := by
  obtain ⟨n, hderives⟩ := h
  induction hderives with
  | refl => exact ⟨[], .nil⟩
  | tail _ hstep ih =>
      obtain ⟨steps, hsteps⟩ := ih
      cases hstep with
      | @apply before after p hp =>
          exact ⟨steps ++ [⟨before, p, after⟩], hsteps.append (.cons rfl hp .nil)⟩

/-! ## Complete derivations -/

/-- A derivation of a word of terminals from the start variable. -/
structure CompleteDerivation (g : Grammar) where
  steps : List Application
  word : List Char
  derives : g.DerivesBy [g.start] steps word
  terminal : g.IsTerminal word

namespace CompleteDerivation

/-- The forms that a derivation goes through. -/
def forms (d : g.CompleteDerivation) : List (List Char) :=
  [g.start] :: d.steps.map Application.target

/-- A production that is applied in a derivation. -/
def Uses (d : g.CompleteDerivation) (p : Production) : Prop := ∃ a ∈ d.steps, a.production = p

/-- A symbol that occurs in a derivation. -/
def Mentions (d : g.CompleteDerivation) (c : Char) : Prop := ∃ form ∈ d.forms, c ∈ form

/-- The forms of a derivation lead from the start variable to its word. -/
theorem derives_of_mem_forms (d : g.CompleteDerivation) (hu : u ∈ d.forms) :
    g.Derives [g.start] u ∧ g.Yields u d.word := by
  rcases List.mem_cons.mp hu with rfl | hu
  · exact ⟨.refl _, yields_iff.mpr ⟨d.terminal, d.derives.derives⟩⟩
  · obtain ⟨a, ha, rfl⟩ := List.mem_map.mp hu
    obtain ⟨hp, hsource, htarget⟩ := d.derives.of_mem ha
    exact ⟨hsource.trans (a.step hp).derives, yields_iff.mpr ⟨d.terminal, htarget⟩⟩

end CompleteDerivation

/-- A production is used where the form that it is applied to is derived, and the form that it leaves
has a word. -/
theorem exists_uses_iff : (∃ d : g.CompleteDerivation, d.Uses p) ↔
    p ∈ g.productions ∧ ∃ before after, g.Derives [g.start] (before ++ p.lhs :: after) ∧
      ∃ w, g.Yields (before ++ p.rhs ++ after) w := by
  constructor
  · rintro ⟨d, a, ha, rfl⟩
    obtain ⟨hp, hsource, htarget⟩ := d.derives.of_mem ha
    exact ⟨hp, a.before, a.after, hsource, d.word, yields_iff.mpr ⟨d.terminal, htarget⟩⟩
  · rintro ⟨hp, before, after, hsource, w, hyields⟩
    obtain ⟨first, hfirst⟩ := exists_derivesBy hsource
    obtain ⟨last, hlast⟩ := exists_derivesBy hyields.derives
    refine ⟨⟨first ++ ⟨before, p, after⟩ :: last, w, ?_, hyields.isTerminal⟩, ?_⟩
    · exact hfirst.append (.cons rfl hp hlast)
    · exact ⟨⟨before, p, after⟩, List.mem_append_right _ List.mem_cons_self, rfl⟩

/-- A symbol is mentioned where a form with it is derived and has a word. -/
theorem exists_mentions_iff : (∃ d : g.CompleteDerivation, d.Mentions c) ↔
    ∃ u, c ∈ u ∧ g.Derives [g.start] u ∧ ∃ w, g.Yields u w := by
  constructor
  · rintro ⟨d, u, hu, hc⟩
    obtain ⟨hderives, hyields⟩ := d.derives_of_mem_forms hu
    exact ⟨u, hc, hderives, d.word, hyields⟩
  · rintro ⟨u, hc, hderives, w, hyields⟩
    obtain ⟨first, hfirst⟩ := exists_derivesBy hderives
    obtain ⟨last, hlast⟩ := exists_derivesBy hyields.derives
    exact ⟨⟨first ++ last, w, hfirst.append hlast, hyields.isTerminal⟩,
      u, hfirst.mem_forms_append, hc⟩

/-! ## What removal finds -/

/-- The variables of a form between the start variable and a word are reached by productions that
have words. -/
theorem mem_reached_of_derives (hderives : g.Derives [g.start] u) (hyields : g.Yields u w)
    (hc : c ∈ u) (hvar : c ∈ g.vars) : c ∈ g.reached g.productive := by
  obtain ⟨n, hderives⟩ := hderives
  induction hderives generalizing w c with
  | refl =>
      rw [List.mem_singleton.mp hc]
      exact start_mem_reached
  | tail _ hstep ih =>
      -- the form before the last step has the same word
      have hsource := Yields.of_step hstep hyields
      cases hstep with
      | @apply before after p hp =>
          obtain ⟨_, middle, _, _, _, hrhs, _⟩ := hyields.split_around
          simp only [List.mem_append] at hc
          rcases hc with (hbefore | hnew) | hafter
          · exact ih hsource (List.mem_append_left _ hbefore) hvar
          · have hlhs : p.lhs ∈ g.reached g.productive :=
              ih hsource (List.mem_append_right _ List.mem_cons_self) (g.lhs_mem p hp)
            exact mem_reached_of_production (mem_productive_of_yields hp hrhs) hlhs hnew hvar
          · exact ih hsource (List.mem_append_right _ (List.mem_cons_of_mem _ hafter)) hvar

/-- What surrounds a reached variable has words, whether the variable has one or not. -/
theorem exists_context_of_mem_reached (hc : c ∈ g.reached g.productive) :
    ∃ before after first last, g.Derives [g.start] (before ++ c :: after) ∧
      g.Yields before first ∧ g.Yields after last := by
  refine reached_induction (motive := fun c => ∃ before after first last,
    g.Derives [g.start] (before ++ c :: after) ∧ g.Yields before first ∧ g.Yields after last)
    ?_ ?_ hc
  · exact ⟨[], [], [], [], .refl _, .nil, .nil⟩
  · rintro p hproductive ⟨before, after, first, last, hderives, hfirst, hlast⟩ d hd _
    obtain ⟨hp, w, hword⟩ := mem_productive_iff.mp hproductive
    obtain ⟨left, right, hrhs⟩ := List.append_of_mem hd
    have hstep : g.Step (before ++ p.lhs :: after) (before ++ p.rhs ++ after) :=
      .apply before after hp
    have hform : before ++ p.rhs ++ after = before ++ left ++ d :: (right ++ after) := by
      rw [hrhs]
      simp only [List.append_assoc, List.cons_append]
    rw [hrhs, List.append_cons] at hword
    obtain ⟨wleft, _, wright, _, hleft, _, hright⟩ := hword.split_around
    exact ⟨before ++ left, right ++ after, first ++ wleft, wright ++ last,
      hform ▸ hderives.trans hstep.derives, hfirst.append hleft, hright.append hlast⟩

/-- Only the start variable is reached without a word of its own. -/
theorem exists_yields_of_mem_reached (hc : c ∈ g.reached g.productive) :
    c = g.start ∨ ∃ w, g.Yields [c] w := by
  refine reached_induction (motive := fun c => c = g.start ∨ ∃ w, g.Yields [c] w) (.inl rfl) ?_ hc
  intro p hproductive _ d hd _
  obtain ⟨_, w, hword⟩ := mem_productive_iff.mp hproductive
  exact .inr (hword.exists_of_mem hd)

/-- The variables that stay are those that complete derivations mention, and the start variable. -/
theorem mem_vars_removeUseless_iff : c ∈ g.removeUseless.vars ↔
    c = g.start ∨ c ∈ g.vars ∧ ∃ d : g.CompleteDerivation, d.Mentions c := by
  rw [exists_mentions_iff]
  constructor
  · intro hc
    rcases exists_yields_of_mem_reached hc with hstart | ⟨w, hword⟩
    · exact .inl hstart
    · obtain ⟨before, after, first, last, hderives, hfirst, hlast⟩ :=
        exists_context_of_mem_reached hc
      refine .inr ⟨mem_variables_of_mem_reached hc, before ++ c :: after,
        List.mem_append_right _ List.mem_cons_self, hderives, first ++ (w ++ last), ?_⟩
      exact hfirst.append (hword.append hlast)
  · rintro (rfl | ⟨hvar, u, hc, hderives, w, hyields⟩)
    · exact start_mem_reached
    · exact mem_reached_of_derives hderives hyields hc hvar

/-- The productions that stay are those that complete derivations use. -/
theorem mem_productions_removeUseless_iff : p ∈ g.removeUseless.productions ↔
    ∃ d : g.CompleteDerivation, d.Uses p := by
  have hmem : p ∈ g.removeUseless.productions ↔
      p ∈ g.productive ∧ p.lhs ∈ g.reached g.productive := by
    rw [← decide_eq_true_iff (p := p.lhs ∈ g.reached g.productive)]
    exact SortedSet.mem_filter
  rw [hmem, exists_uses_iff]
  constructor
  · rintro ⟨hproductive, hreached⟩
    obtain ⟨hp, w, hword⟩ := mem_productive_iff.mp hproductive
    obtain ⟨before, after, first, last, hderives, hfirst, hlast⟩ :=
      exists_context_of_mem_reached hreached
    exact ⟨hp, before, after, hderives, first ++ w ++ last, (hfirst.append hword).append hlast⟩
  · rintro ⟨hp, before, after, hderives, w, hyields⟩
    obtain ⟨_, middle, _, _, _, hrhs, _⟩ := hyields.split_around
    have hsource : g.Yields (before ++ p.lhs :: after) w :=
      .of_step (.apply before after hp) hyields
    have hlhs : p.lhs ∈ before ++ p.lhs :: after := List.mem_append_right _ List.mem_cons_self
    exact ⟨mem_productive_of_yields hp hrhs,
      mem_reached_of_derives hderives hsource hlhs (g.lhs_mem p hp)⟩

/-- A start variable without words stays alone, and no production with it. -/
theorem removeUseless_of_not_generates (h : ∀ w, ¬ g.Generates g.start w) :
    (∀ p, p ∉ g.removeUseless.productions) ∧ ∀ c, c ∈ g.removeUseless.vars ↔ c = g.start := by
  have hnone : ∀ d : g.CompleteDerivation, False := fun d =>
    h d.word ⟨d.terminal, d.derives.derives⟩
  constructor
  · intro p hp
    obtain ⟨d, _⟩ := mem_productions_removeUseless_iff.mp hp
    exact hnone d
  · intro c
    rw [mem_vars_removeUseless_iff]
    apply or_iff_left
    rintro ⟨_, d, _⟩
    exact hnone d

/-- Removing useless productions keeps the productions and variables of complete derivations, and no
others but the start variable. The start variable leads to the words that it led to, and all else of
the grammar is as it was. -/
theorem removeUseless_exact (g : Grammar) :
    (∀ p, p ∈ g.removeUseless.productions ↔ ∃ d : g.CompleteDerivation, d.Uses p) ∧
    (∀ c, c ∈ g.removeUseless.vars ↔
      c = g.start ∨ c ∈ g.vars ∧ ∃ d : g.CompleteDerivation, d.Mentions c) ∧
    (∀ w, g.removeUseless.Generates g.removeUseless.start w ↔ g.Generates g.start w) ∧
    g.removeUseless.terminals = g.terminals ∧ g.removeUseless.start = g.start ∧
    g.removeUseless.kind = g.kind ∧ g.removeUseless.acceptsEmpty = g.acceptsEmpty := by
  refine ⟨fun p => mem_productions_removeUseless_iff, fun c => mem_vars_removeUseless_iff, ?_,
    rfl, rfl, rfl, rfl⟩
  intro w
  rw [Generates, Generates, ← yields_iff, ← yields_iff]
  exact yields_removeUseless_iff g.removeUseless.start_mem

/-- The grammar of `S -> AB | a`, `A -> a` and `B -> bB`. The variable `A` has a word and occurs in a
production of `S`, but only beside `B`, which has none. -/
def stranded : Grammar where
  terminals := .ofList ['a', 'b']
  vars := .ofList ['S', 'A', 'B']
  productions := .ofList [⟨'S', ['A', 'B']⟩, ⟨'S', ['a']⟩, ⟨'A', ['a']⟩, ⟨'B', ['b', 'B']⟩]
  start := 'S'
  kind := .contextFree
  acceptsEmpty := false
  start_mem := by decide
  disjoint := by simp [SortedSet.mem_ofList]
  lhs_mem := by decide
  rhs_mem := by simp [SortedSet.mem_ofList]
  admitted := by decide

example : stranded.removeUseless.vars.toList = ['S'] ∧
    stranded.removeUseless.productions.toList = [⟨'S', ['a']⟩] := by cbv

end LanguageTheory.Grammar
