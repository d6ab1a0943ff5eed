import LanguageTheory.Grammar.Basic

/-!
# Construction of grammars, and its first fault

A grammar is described by lists, but only what they name matters. The faults of a description are
told from the lists alone (`DescriptionFault`): the start comes before the symbols, the symbols
before the productions, and the productions are looked at in their own order, whatever the order of
the list. Construction reports such a fault, or else makes the grammar of the lists
(`ofLists_exact`).
-/

namespace LanguageTheory.Grammar

variable {terminals vars : List Char} {productions : List Production} {start : Char} {kind : Kind}
  {p : Production} {fault : GrammarFault} {rhs l : List Char} {c : Char}

/-! ## Shapes -/

/-- A variable where the kind forbids it: before the last symbol, or after the first one. -/
inductive Misplaced (vars : List Char) : Kind → List Char → Prop
  | rightLinear {before after : List Char} {c d : Char} : c ∈ vars →
      Misplaced vars .rightLinear (before ++ c :: d :: after)
  | leftLinear {before after : List Char} {c d : Char} : d ∈ vars →
      Misplaced vars .leftLinear (c :: before ++ d :: after)

theorem mem_dropLast_iff : c ∈ l.dropLast ↔ ∃ before d after, l = before ++ c :: d :: after := by
  constructor
  · intro hc
    obtain ⟨before, after, hfront⟩ := List.append_of_mem hc
    have hne : l ≠ [] := by
      rintro rfl
      exact List.not_mem_nil hc
    have hsplit := List.dropLast_concat_getLast hne
    rw [hfront, List.append_assoc, List.cons_append] at hsplit
    cases after with
    | nil => exact ⟨before, l.getLast hne, [], hsplit.symm⟩
    | cons d after => exact ⟨before, d, after ++ [l.getLast hne], hsplit.symm⟩
  · rintro ⟨before, d, after, rfl⟩
    rw [List.dropLast_append_cons, List.dropLast_cons_cons]
    exact List.mem_append_right before List.mem_cons_self

theorem mem_tail_iff : c ∈ l.tail ↔ ∃ first before after, l = first :: before ++ c :: after := by
  cases l with
  | nil => simp
  | cons first rest =>
      rw [List.tail_cons, List.mem_iff_append]
      simp

/-- A kind admits the right-hand sides without a misplaced variable. -/
theorem admits_iff_not_misplaced :
    kind.Admits (.ofList vars) rhs ↔ ¬ Misplaced vars kind rhs := by
  cases kind with
  | contextFree =>
      refine iff_of_true trivial ?_
      rintro ⟨⟩
  | rightLinear =>
      constructor
      · intro hadmits hmisplaced
        cases hmisplaced with
        | rightLinear hvar =>
            refine hadmits _ (mem_dropLast_iff.mpr ?_) (SortedSet.mem_ofList.mpr hvar)
            exact ⟨_, _, _, rfl⟩
      · intro hplaced c hc hvar
        obtain ⟨before, d, after, rfl⟩ := mem_dropLast_iff.mp hc
        exact hplaced (.rightLinear (SortedSet.mem_ofList.mp hvar))
  | leftLinear =>
      constructor
      · intro hadmits hmisplaced
        cases hmisplaced with
        | leftLinear hvar =>
            refine hadmits _ (mem_tail_iff.mpr ?_) (SortedSet.mem_ofList.mpr hvar)
            exact ⟨_, _, _, rfl⟩
      · intro hplaced d hd hvar
        obtain ⟨c, before, after, rfl⟩ := mem_tail_iff.mp hd
        exact hplaced (.leftLinear (SortedSet.mem_ofList.mp hvar))

/-! ## Faults of productions -/

/-- What is wrong with a production: its left-hand side, or else the leftmost symbol that is neither
a variable nor a terminal, or else its shape. -/
inductive ProductionFault (terminals vars : List Char) (kind : Kind) (p : Production) :
    GrammarFault → Prop
  | lhs : p.lhs ∉ vars → ProductionFault terminals vars kind p (.unknownProductionSymbol p p.lhs)
  | rhs {before after : List Char} {c : Char} : p.lhs ∈ vars → p.rhs = before ++ c :: after →
      (∀ d ∈ before, d ∈ vars ∨ d ∈ terminals) → c ∉ vars → c ∉ terminals →
      ProductionFault terminals vars kind p (.unknownProductionSymbol p c)
  | shape : p.lhs ∈ vars → (∀ d ∈ p.rhs, d ∈ vars ∨ d ∈ terminals) → Misplaced vars kind p.rhs →
      ProductionFault terminals vars kind p (.shapeViolation kind p)

/-- The first unknown symbol of a right-hand side is the leftmost one. -/
theorem find?_unknown_eq_some_iff :
    rhs.find? (fun d => d ∉ SortedSet.ofList vars ∧ d ∉ SortedSet.ofList terminals) = some c ↔
      ∃ before after, rhs = before ++ c :: after ∧
        (∀ d ∈ before, d ∈ vars ∨ d ∈ terminals) ∧ c ∉ vars ∧ c ∉ terminals := by
  simp only [List.find?_eq_some_iff_append, SortedSet.mem_ofList, decide_eq_true_eq,
    Bool.not_eq_true', decide_eq_false_iff_not, not_and, Classical.not_not]
  constructor
  · rintro ⟨hunknown, before, after, hsplit, hbefore⟩
    exact ⟨before, after, hsplit,
      fun d hd => Classical.or_iff_not_imp_left.mpr (hbefore d hd), hunknown⟩
  · rintro ⟨before, after, hsplit, hbefore, hunknown⟩
    exact ⟨hunknown, before, after, hsplit,
      fun d hd => Classical.or_iff_not_imp_left.mp (hbefore d hd)⟩

theorem find?_unknown_eq_none_iff :
    rhs.find? (fun d => d ∉ SortedSet.ofList vars ∧ d ∉ SortedSet.ofList terminals) = none ↔
      ∀ d ∈ rhs, d ∈ vars ∨ d ∈ terminals := by
  simp only [List.find?_eq_none, SortedSet.mem_ofList, decide_eq_true_eq, not_and,
    Classical.not_not]
  exact forall₂_congr fun d _ => Classical.or_iff_not_imp_left.symm

theorem productionFault_eq_some_iff :
    productionFault (.ofList terminals) (.ofList vars) kind p = some fault ↔
      ProductionFault terminals vars kind p fault := by
  constructor
  · intro hfound
    unfold productionFault at hfound
    split at hfound
    next hlhs =>
      cases hfound
      exact .lhs (mt SortedSet.mem_ofList.mpr hlhs)
    next hlhs =>
      have hmem : p.lhs ∈ vars := SortedSet.mem_ofList.mp (Classical.not_not.mp hlhs)
      split at hfound
      next c hunknown =>
        cases hfound
        obtain ⟨before, after, hsplit, hbefore, hvar, hterminal⟩ :=
          find?_unknown_eq_some_iff.mp hunknown
        exact .rhs hmem hsplit hbefore hvar hterminal
      next hknown =>
        split at hfound
        next => cases hfound
        next hshape =>
          cases hfound
          have hmisplaced := Classical.not_not.mp (mt admits_iff_not_misplaced.mpr hshape)
          exact .shape hmem (find?_unknown_eq_none_iff.mp hknown) hmisplaced
  · intro hfault
    unfold productionFault
    cases hfault with
    | lhs hlhs => rw [if_pos (mt SortedSet.mem_ofList.mp hlhs)]
    | rhs hlhs hsplit hbefore hvar hterminal =>
        rw [if_neg (not_not_intro (SortedSet.mem_ofList.mpr hlhs)),
          find?_unknown_eq_some_iff.mpr ⟨_, _, hsplit, hbefore, hvar, hterminal⟩]
    | shape hlhs hknown hmisplaced =>
        rw [if_neg (not_not_intro (SortedSet.mem_ofList.mpr hlhs)),
          find?_unknown_eq_none_iff.mpr hknown]
        exact if_neg fun hadmits => admits_iff_not_misplaced.mp hadmits hmisplaced

/-! ## Faults of descriptions -/

/-- Productions are ordered by their left-hand sides, then lexicographically by their right-hand
sides. -/
def Precedes (q p : Production) : Prop := q.lhs < p.lhs ∨ q.lhs = p.lhs ∧ q.rhs < p.rhs

/-- What is wrong with a description of a grammar: its start, or else the least symbol that is a
terminal and a variable, or else the fault of the first production with one. -/
inductive DescriptionFault (terminals vars : List Char) (productions : List Production)
    (start : Char) (kind : Kind) : GrammarFault → Prop
  | start : start ∉ vars →
      DescriptionFault terminals vars productions start kind (.startNotVariable start)
  | overlap {c : Char} : start ∈ vars → c ∈ terminals → c ∈ vars →
      (∀ d ∈ terminals, d < c → d ∉ vars) →
      DescriptionFault terminals vars productions start kind (.overlappingSymbols c)
  | production {p : Production} {fault : GrammarFault} : start ∈ vars →
      (∀ d ∈ terminals, d ∉ vars) → p ∈ productions → ProductionFault terminals vars kind p fault →
      (∀ q ∈ productions, Precedes q p → ∀ other, ¬ ProductionFault terminals vars kind q other) →
      DescriptionFault terminals vars productions start kind fault

theorem find?_overlap_eq_some_iff :
    (SortedSet.ofList terminals).toList.find? (· ∈ SortedSet.ofList vars) = some c ↔
      c ∈ terminals ∧ c ∈ vars ∧ ∀ d ∈ terminals, d < c → d ∉ vars := by
  simp only [SortedSet.find?_toList_eq_some_iff, SortedSet.mem_ofList, decide_eq_true_eq,
    Below.char_iff]

theorem find?_overlap_eq_none_iff :
    (SortedSet.ofList terminals).toList.find? (· ∈ SortedSet.ofList vars) = none ↔
      ∀ d ∈ terminals, d ∉ vars := by
  simp only [List.find?_eq_none, SortedSet.mem_toList, SortedSet.mem_ofList, decide_eq_true_eq]

theorem findSome?_productionFault_eq_some_iff :
    (SortedSet.ofList productions).toList.findSome?
        (productionFault (.ofList terminals) (.ofList vars) kind) = some fault ↔
      ∃ p ∈ productions, ProductionFault terminals vars kind p fault ∧
        ∀ q ∈ productions, Precedes q p → ∀ other, ¬ ProductionFault terminals vars kind q other := by
  have hnone (q : Production) :
      productionFault (.ofList terminals) (.ofList vars) kind q = none ↔
        ∀ other, ¬ ProductionFault terminals vars kind q other := by
    simp only [Option.eq_none_iff_forall_ne_some, ne_eq, productionFault_eq_some_iff]
  simp only [SortedSet.findSome?_toList_eq_some_iff, SortedSet.mem_ofList, Production.below_iff,
    productionFault_eq_some_iff, hnone, Precedes]

theorem firstFault_eq_some_iff :
    firstFault (.ofList terminals) (.ofList vars) (.ofList productions) start kind = some fault ↔
      DescriptionFault terminals vars productions start kind fault := by
  constructor
  · intro hfound
    unfold firstFault at hfound
    split at hfound
    next hstart =>
      cases hfound
      exact .start (mt SortedSet.mem_ofList.mpr hstart)
    next hstart =>
      have hmem : start ∈ vars := SortedSet.mem_ofList.mp (Classical.not_not.mp hstart)
      split at hfound
      next c hoverlap =>
        cases hfound
        obtain ⟨hterminal, hvar, hleast⟩ := find?_overlap_eq_some_iff.mp hoverlap
        exact .overlap hmem hterminal hvar hleast
      next hdisjoint =>
        obtain ⟨p, hp, hfault, hfirst⟩ := findSome?_productionFault_eq_some_iff.mp hfound
        exact .production hmem (find?_overlap_eq_none_iff.mp hdisjoint) hp hfault hfirst
  · intro hfault
    unfold firstFault
    cases hfault with
    | start hstart => rw [if_pos (mt SortedSet.mem_ofList.mp hstart)]
    | overlap hstart hterminal hvar hleast =>
        rw [if_neg (not_not_intro (SortedSet.mem_ofList.mpr hstart)),
          find?_overlap_eq_some_iff.mpr ⟨hterminal, hvar, hleast⟩]
    | production hstart hdisjoint hp hfault hfirst =>
        rw [if_neg (not_not_intro (SortedSet.mem_ofList.mpr hstart)),
          find?_overlap_eq_none_iff.mpr hdisjoint]
        exact findSome?_productionFault_eq_some_iff.mpr ⟨_, hp, hfault, hfirst⟩

/-! ## Construction -/

/-- A description of a grammar without a fault. -/
structure WellFormed (terminals vars : List Char) (productions : List Production) (start : Char)
    (kind : Kind) : Prop where
  start_mem : start ∈ vars
  disjoint : ∀ c ∈ terminals, c ∉ vars
  lhs_mem : ∀ p ∈ productions, p.lhs ∈ vars
  rhs_mem : ∀ p ∈ productions, ∀ c ∈ p.rhs, c ∈ vars ∨ c ∈ terminals
  not_misplaced : ∀ p ∈ productions, ¬ Misplaced vars kind p.rhs

theorem firstFault_eq_none_iff_wellFormed :
    firstFault (.ofList terminals) (.ofList vars) (.ofList productions) start kind = none ↔
      WellFormed terminals vars productions start kind := by
  simp only [firstFault_eq_none_iff, productionFault_eq_none_iff, SortedSet.mem_ofList,
    admits_iff_not_misplaced]
  constructor
  · rintro ⟨hstart, hdisjoint, hproductions⟩
    exact ⟨hstart, hdisjoint, fun p hp => (hproductions p hp).1,
      fun p hp => (hproductions p hp).2.1, fun p hp => (hproductions p hp).2.2⟩
  · rintro ⟨hstart, hdisjoint, hlhs, hrhs, hplaced⟩
    exact ⟨hstart, hdisjoint, fun p hp => ⟨hlhs p hp, hrhs p hp, hplaced p hp⟩⟩

/-- The grammar has the listed terminals, variables and productions, the given start variable and
kind, and does not accept the empty word on its own. -/
structure IsGivenBy (g : Grammar) (terminals vars : List Char) (productions : List Production)
    (start : Char) (kind : Kind) : Prop where
  mem_terminals_iff : ∀ c, c ∈ g.terminals ↔ c ∈ terminals
  mem_vars_iff : ∀ c, c ∈ g.vars ↔ c ∈ vars
  mem_productions_iff : ∀ p, p ∈ g.productions ↔ p ∈ productions
  start_eq : g.start = start
  kind_eq : g.kind = kind
  acceptsEmpty_eq : g.acceptsEmpty = false

theorem isGivenBy_of_ofLists {g : Grammar}
    (hmade : ofLists terminals vars productions start kind = .ok g) :
    IsGivenBy g terminals vars productions start kind := by
  obtain ⟨hterminals, hvars, hproductions, hstart, hkind, hflag⟩ := ofSets_eq_ok_iff.mp hmade
  refine ⟨?_, ?_, ?_, hstart, hkind, hflag⟩
  · intro c
    rw [hterminals, SortedSet.mem_ofList]
  · intro c
    rw [hvars, SortedSet.mem_ofList]
  · intro p
    rw [hproductions, SortedSet.mem_ofList]

theorem exists_ofLists_eq_ok_iff :
    (∃ g, ofLists terminals vars productions start kind = .ok g) ↔
      WellFormed terminals vars productions start kind := by
  rw [← firstFault_eq_none_iff_wellFormed, Option.eq_none_iff_forall_ne_some]
  cases hmade : ofLists terminals vars productions start kind with
  | error fault =>
      refine iff_of_false (fun ⟨g, hg⟩ => by cases hg) fun hnone => ?_
      exact hnone fault (ofSets_eq_error_iff.mp hmade)
  | ok g =>
      refine iff_of_true ⟨g, rfl⟩ fun fault hfault => ?_
      have herror := hmade.symm.trans (ofSets_eq_error_iff.mpr hfault)
      cases herror

/-- Only the elements of the lists matter. -/
theorem ofLists_congr {terminals' vars' : List Char} {productions' : List Production}
    (hterminals : ∀ c, c ∈ terminals' ↔ c ∈ terminals) (hvars : ∀ c, c ∈ vars' ↔ c ∈ vars)
    (hproductions : ∀ p, p ∈ productions' ↔ p ∈ productions) :
    ofLists terminals' vars' productions' start kind =
      ofLists terminals vars productions start kind := by
  have hsame {α : Type} [TotalOrd α] {l m : List α} (h : ∀ a, a ∈ l ↔ a ∈ m) :
      SortedSet.ofList l = SortedSet.ofList m :=
    SortedSet.ext fun a => by rw [SortedSet.mem_ofList, SortedSet.mem_ofList, h a]
  unfold ofLists
  rw [hsame hterminals, hsame hvars, hsame hproductions]

/-- Construction reports exactly the faults of the description, and so the first one in a fixed
order. It makes the grammar of the lists exactly when every symbol is what it is used for and stands
where it may. The order of the lists and repetitions in them never matter. -/
theorem ofLists_exact (terminals vars : List Char) (productions : List Production) (start : Char)
    (kind : Kind) :
    (∀ fault, ofLists terminals vars productions start kind = .error fault ↔
      DescriptionFault terminals vars productions start kind fault) ∧
    ((∃ g, ofLists terminals vars productions start kind = .ok g) ↔
      WellFormed terminals vars productions start kind) ∧
    (∀ g, ofLists terminals vars productions start kind = .ok g →
      IsGivenBy g terminals vars productions start kind) ∧
    ∀ terminals' vars' productions', (∀ c, c ∈ terminals' ↔ c ∈ terminals) →
      (∀ c, c ∈ vars' ↔ c ∈ vars) → (∀ p, p ∈ productions' ↔ p ∈ productions) →
        ofLists terminals' vars' productions' start kind =
          ofLists terminals vars productions start kind := by
  refine ⟨?_, exists_ofLists_eq_ok_iff, fun g => isGivenBy_of_ofLists, ?_⟩
  · intro fault
    rw [← firstFault_eq_some_iff, ← ofSets_eq_error_iff, ofLists]
  · intro terminals' vars' productions' hterminals hvars hproductions
    exact ofLists_congr hterminals hvars hproductions

theorem ofLists_exact_rightLinear :
    DescriptionFault ['a'] ['S', 'A'] [⟨'S', ['x']⟩, ⟨'A', ['S', 'a']⟩, ⟨'A', ['S', 'S']⟩] 'S'
      .rightLinear (.shapeViolation .rightLinear ⟨'A', ['S', 'S']⟩) ∧
    ∃ g, ofLists ['a', 'b'] ['A', 'S'] [⟨'A', ['b']⟩, ⟨'S', ['a', 'A']⟩] 'S' .rightLinear = .ok g ∧
      ofLists ['b', 'a', 'b'] ['S', 'A'] [⟨'S', ['a', 'A']⟩, ⟨'A', ['b']⟩, ⟨'A', ['b']⟩] 'S'
        .rightLinear = .ok g ∧
      IsGivenBy g ['a', 'b'] ['A', 'S'] [⟨'A', ['b']⟩, ⟨'S', ['a', 'A']⟩] 'S' .rightLinear := by
  constructor
  · exact ((ofLists_exact _ _ _ _ _).1 _).mp rfl
  · obtain ⟨g, hmade⟩ : ∃ g, ofLists ['a', 'b'] ['A', 'S'] [⟨'A', ['b']⟩, ⟨'S', ['a', 'A']⟩] 'S'
        .rightLinear = .ok g := ⟨_, rfl⟩
    obtain ⟨_, _, hgiven, hsame⟩ :=
      ofLists_exact ['a', 'b'] ['A', 'S'] [⟨'A', ['b']⟩, ⟨'S', ['a', 'A']⟩] 'S' .rightLinear
    refine ⟨g, hmade, (hsame _ _ _ ?_ ?_ ?_).trans hmade, hgiven g hmade⟩
    all_goals
      intro a
      simp only [List.mem_cons, List.not_mem_nil, or_false]
      grind

end LanguageTheory.Grammar
