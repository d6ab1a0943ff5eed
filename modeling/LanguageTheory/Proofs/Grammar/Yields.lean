import LanguageTheory.Grammar.Derivation

/-!
# Words of forms

A derivation of a terminal word may apply its productions in any order. `Yields` forgets the order:
it takes a form symbol by symbol, and each variable by one of its productions. Both say the same of
terminal words (`yields_iff`), and proofs about grammars go by induction on `Yields`.
-/

namespace LanguageTheory.Grammar

variable {g : Grammar} {u v w : List Char} {c : Char}

instance (g : Grammar) (w : List Char) : Decidable (g.IsTerminal w) :=
  List.decidableBAll (· ∈ g.terminals) w

/-! ## Derivations in a context -/

theorem Step.context (h : g.Step u v) (before after : List Char) :
    g.Step (before ++ u ++ after) (before ++ v ++ after) := by
  cases h with
  | apply first last hp =>
      have hstep := Step.apply (before ++ first) (last ++ after) hp
      simpa only [List.append_assoc, List.cons_append] using hstep

theorem Step.derives (h : g.Step u v) : g.Derives u v := ⟨1, .tail .refl h⟩

namespace Derives

theorem refl (u : List Char) : g.Derives u u := ⟨0, .refl⟩

theorem trans (huv : g.Derives u v) (hvw : g.Derives v w) : g.Derives u w := by
  obtain ⟨m, huv⟩ := huv
  obtain ⟨n, hvw⟩ := hvw
  exact ⟨m + n, huv.trans hvw⟩

theorem context (h : g.Derives u v) (before after : List Char) :
    g.Derives (before ++ u ++ after) (before ++ v ++ after) := by
  obtain ⟨n, hderives⟩ := h
  induction hderives with
  | refl => exact .refl _
  | tail _ hstep ih => exact ih.trans (hstep.context before after).derives

end Derives

/-! ## Words of forms -/

/-- The terminal words of a form. -/
inductive Yields (g : Grammar) : List Char → List Char → Prop
  | nil : Yields g [] []
  | terminal {c : Char} {rest w : List Char} :
      c ∈ g.terminals → Yields g rest w → Yields g (c :: rest) (c :: w)
  | production {c : Char} {rhs rest v w : List Char} :
      ⟨c, rhs⟩ ∈ g.productions → Yields g rhs v → Yields g rest w → Yields g (c :: rest) (v ++ w)

namespace Yields

theorem isTerminal (h : g.Yields u w) : g.IsTerminal w := by
  induction h with
  | nil =>
      intro c hc
      exact absurd hc List.not_mem_nil
  | terminal hc _ ih =>
      intro d hd
      rcases List.mem_cons.mp hd with rfl | hd
      · exact hc
      · exact ih d hd
  | production _ _ _ ihv ihw =>
      intro d hd
      rcases List.mem_append.mp hd with hd | hd
      · exact ihv d hd
      · exact ihw d hd

theorem self (hw : g.IsTerminal w) : g.Yields w w := by
  induction w with
  | nil => exact .nil
  | cons c w ih =>
      apply Yields.terminal (hw c List.mem_cons_self)
      exact ih fun d hd => hw d (List.mem_cons_of_mem c hd)

theorem append {w' : List Char} (hu : g.Yields u w) (hv : g.Yields v w') :
    g.Yields (u ++ v) (w ++ w') := by
  induction hu with
  | nil => exact hv
  | terminal hc _ ih => exact .terminal hc ih
  | production hp hrhs _ _ ih =>
      rw [List.append_assoc]
      exact .production hp hrhs ih

/-- The word of two forms in a row is cut where the first form ends. -/
theorem split (h : g.Yields (u ++ v) w) :
    ∃ first second, w = first ++ second ∧ g.Yields u first ∧ g.Yields v second := by
  induction u generalizing w with
  | nil => exact ⟨[], w, rfl, .nil, h⟩
  | cons c u ih =>
      cases h with
      | terminal hc hrest =>
          obtain ⟨first, second, rfl, hfirst, hsecond⟩ := ih hrest
          exact ⟨c :: first, second, rfl, .terminal hc hfirst, hsecond⟩
      | production hp hrhs hrest =>
          obtain ⟨first, second, rfl, hfirst, hsecond⟩ := ih hrest
          refine ⟨_ ++ first, second, ?_, .production hp hrhs hfirst, hsecond⟩
          rw [List.append_assoc]

/-- The word of a form is cut before and after a part of the form. -/
theorem split_around {before after : List Char} (h : g.Yields (before ++ u ++ after) w) :
    ∃ first middle last, w = first ++ middle ++ last ∧ g.Yields before first ∧
      g.Yields u middle ∧ g.Yields after last := by
  obtain ⟨start, last, rfl, hstart, hlast⟩ := h.split
  obtain ⟨first, middle, rfl, hfirst, hmiddle⟩ := hstart.split
  exact ⟨first, middle, last, rfl, hfirst, hmiddle, hlast⟩

/-- More terminals and productions leave no word out. -/
theorem mono {h : Grammar} (hword : g.Yields u w) (hterminals : ∀ c ∈ g.terminals, c ∈ h.terminals)
    (hproductions : ∀ p ∈ g.productions, p ∈ h.productions) : h.Yields u w := by
  induction hword with
  | nil => exact .nil
  | terminal hc _ ih => exact .terminal (hterminals _ hc) ih
  | production hp _ _ ihrhs ihrest => exact .production (hproductions _ hp) ihrhs ihrest

/-- A form has a word when each of its symbols has one. -/
theorem exists_of_forall (hu : ∀ c ∈ u, ∃ w, g.Yields [c] w) : ∃ w, g.Yields u w := by
  induction u with
  | nil => exact ⟨[], .nil⟩
  | cons c u ih =>
      obtain ⟨first, hfirst⟩ := hu c List.mem_cons_self
      obtain ⟨rest, hrest⟩ := ih fun d hd => hu d (List.mem_cons_of_mem c hd)
      exact ⟨first ++ rest, hfirst.append hrest⟩

/-- Each symbol of a form that has a word has one. -/
theorem exists_of_mem (h : g.Yields u w) (hc : c ∈ u) : ∃ v, g.Yields [c] v := by
  obtain ⟨before, after, rfl⟩ := List.append_of_mem hc
  rw [List.append_cons] at h
  obtain ⟨_, v, _, _, _, hv, _⟩ := h.split_around
  exact ⟨v, hv⟩

theorem of_terminal (hc : c ∈ g.terminals) : g.Yields [c] [c] := .terminal hc .nil

/-- A production makes a word of its right-hand side a word of its left-hand side. -/
theorem of_production {rhs : List Char} (hp : ⟨c, rhs⟩ ∈ g.productions) (h : g.Yields rhs w) :
    g.Yields [c] w := by
  have hword := Yields.production hp h .nil
  rwa [List.append_nil] at hword

theorem of_step (hstep : g.Step u v) (h : g.Yields v w) : g.Yields u w := by
  cases hstep with
  | apply before after hp =>
      obtain ⟨first, middle, last, rfl, hfirst, hmiddle, hlast⟩ := h.split_around
      rw [List.append_assoc]
      exact hfirst.append (.production hp hmiddle hlast)

theorem of_derivesIn {n : Nat} (hderives : g.DerivesIn u n v) (h : g.Yields v w) :
    g.Yields u w := by
  induction hderives with
  | refl => exact h
  | tail _ hstep ih => exact ih (.of_step hstep h)

theorem derives (h : g.Yields u w) : g.Derives u w := by
  induction h with
  | nil => exact .refl []
  | @terminal c rest w _ _ ih =>
      have hcontext := ih.context [c] []
      rwa [List.append_nil, List.append_nil] at hcontext
  | @production c rhs rest v w hp _ _ ihv ihw =>
      -- the leftmost symbol is rewritten, then its right-hand side, and the rest at the end
      have hstep : g.Step (c :: rest) (rhs ++ rest) := .apply [] rest hp
      have hleft : g.Derives (rhs ++ rest) (v ++ rest) := ihv.context [] rest
      have hright : g.Derives (v ++ rest) (v ++ w) := by
        have hcontext := ihw.context v []
        rwa [List.append_nil, List.append_nil] at hcontext
      exact (hstep.derives.trans hleft).trans hright

end Yields

/-- A form yields a word when it derives it, in whatever order. -/
theorem yields_iff : g.Yields u w ↔ g.IsTerminal w ∧ g.Derives u w := by
  constructor
  · intro h
    exact ⟨h.isTerminal, h.derives⟩
  · rintro ⟨hterminal, n, hderives⟩
    exact .of_derivesIn hderives (.self hterminal)

end LanguageTheory.Grammar
