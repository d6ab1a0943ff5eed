import LanguageTheory.Proofs.Grammar.Decision

/-!
# Normal forms of normal forms

A removal finds nothing to remove in its own result: without empty productions no variable vanishes,
without unit productions no variable is renamed, and what is of use stays of use. The chains of a
grammar where all is of use are of use as well (`AllUseful.binary`), so a normal form passes through
the removals as it is, needs no helper, and is its own normal form (`toChomskyForm_eq_self`).
-/

namespace LanguageTheory.Grammar

variable {g h : Grammar} {p q : Production} {name : Helper → Char} {c d : Char}

/-! ## Empty productions -/

theorem not_mem_nullable (hne : ∀ p ∈ g.productions, p.rhs ≠ []) : c ∉ g.nullable := by
  intro hc
  refine yielding_induction (motive := fun _ => False) ?_ hc
  intro p hp hrhs
  obtain ⟨d, hd⟩ := List.exists_mem_of_ne_nil p.rhs (hne p hp)
  exact (hrhs d hd).resolve_left Bool.false_ne_true

/-- Where nothing can be deleted a list is its only variant. -/
theorem variants_eq_singleton {deletable : SortedSet Char} {symbols : List Char}
    (hnone : ∀ c, c ∉ deletable) : variants deletable symbols = [symbols] := by
  induction symbols with
  | nil => rfl
  | cons c symbols ih => simp [variants, hnone c, ih]

theorem removeLambda_eq (hne : ∀ p ∈ g.productions, p.rhs ≠ []) :
    g.removeLambda = { g with acceptsEmpty := false } := by
  have hproductions : g.lambdaFreeProductions = g.productions := by
    apply SortedSet.ext
    intro q
    have hvariants : ∀ symbols, variants g.nullable symbols = [symbols] := fun symbols =>
      variants_eq_singleton fun c => not_mem_nullable hne
    simp only [mem_lambdaFreeProductions, hvariants, List.mem_singleton]
    constructor
    · rintro ⟨p, hp, hlhs, hrhs, _⟩
      have hsame : q = p := by
        cases q
        cases p
        simp_all
      exact hsame ▸ hp
    · intro hq
      exact ⟨q, hq, rfl, rfl, hne q hq⟩
  ext1 <;> first | exact hproductions | rfl

theorem removeLambda_removeLambda (g : Grammar) : g.removeLambda.removeLambda = g.removeLambda :=
  removeLambda_eq fun _ hp => ne_nil_of_mem_removeLambda hp

/-! ## Unit productions -/

/-- Where no production is a unit one a variable is renamed to itself only. -/
theorem mem_unitClosure_iff_eq (hnone : ∀ p ∈ g.productions, ¬ g.isUnit p) :
    d ∈ g.unitClosure c ↔ d = c := by
  rw [mem_unitClosure_iff]
  constructor
  · intro hlinked
    cases hlinked with
    | refl => rfl
    | tail _ hunit =>
        obtain ⟨hp, hd⟩ := mem_unitTargets.mp hunit
        exact absurd (isUnit_iff.mpr ⟨d, hd, rfl⟩) (hnone _ hp)
  · rintro rfl
    exact .refl

theorem removeUnit_eq_self (hnone : ∀ p ∈ g.productions, ¬ g.isUnit p) : g.removeUnit = g := by
  have hproductions : g.unitFreeProductions = g.productions := by
    apply SortedSet.ext
    intro q
    simp only [mem_unitFreeProductions, mem_unitClosure_iff_eq hnone]
    constructor
    · rintro ⟨_, d, rfl, hp, _⟩
      exact hp
    · intro hq
      exact ⟨g.lhs_mem q hq, q.lhs, rfl, hq, hnone q hq⟩
  ext1 <;> first | exact hproductions | rfl

theorem not_isUnit_of_mem_removeUnit (hp : p ∈ g.removeUnit.productions) :
    ¬ g.removeUnit.isUnit p := by
  obtain ⟨_, d, _, _, hunit⟩ := mem_unitFreeProductions.mp hp
  exact hunit

theorem removeUnit_removeUnit (g : Grammar) : g.removeUnit.removeUnit = g.removeUnit :=
  removeUnit_eq_self fun _ hp => not_isUnit_of_mem_removeUnit hp

/-! ## Useless productions -/

theorem AllUseful.removeUseless_eq (hg : g.AllUseful) : g.removeUseless = g := by
  have hproductive : g.productive = g.productions := by
    apply SortedSet.ext
    intro p
    rw [mem_productive_iff]
    exact ⟨fun hp => hp.1, fun hp => ⟨hp, hg.productive p hp⟩⟩
  have hvars : g.removeUseless.vars = g.vars := by
    apply SortedSet.ext
    intro c
    refine ⟨mem_variables_of_mem_reached, ?_⟩
    intro hc
    have hreached := hg.reached c hc
    rwa [← hproductive] at hreached
  have hproductions : g.removeUseless.productions = g.productions := by
    apply SortedSet.ext
    intro p
    constructor
    · intro hp
      exact (mem_productive.mp (mem_productive_of_mem_removeUseless hp)).1
    · intro hp
      have hkept : p.lhs ∈ g.removeUseless.vars := hvars.symm ▸ g.lhs_mem p hp
      exact SortedSet.mem_filter.mpr ⟨hproductive.symm ▸ hp, decide_eq_true hkept⟩
  ext1 <;> first | exact hvars | exact hproductions | rfl

theorem removeUseless_removeUseless (g : Grammar) :
    g.removeUseless.removeUseless = g.removeUseless :=
  (allUseful_removeUseless g).removeUseless_eq

/-- The flag has no part in what is of use. -/
theorem AllUseful.withFlag (hg : g.AllUseful) (acceptsEmpty : Bool) :
    AllUseful { g with acceptsEmpty } := by
  constructor
  · intro p hp
    obtain ⟨w, hword⟩ := hg.productive p hp
    exact ⟨w, hword.mono (fun _ hc => hc) fun _ hq => hq⟩
  · exact hg.reached

/-! ## Chains -/

/-- The productions of a chain have words when its symbols have one. -/
theorem exists_yields_of_mem_chain {link : Nat → Char} {head : Char} {position : Nat}
    {symbols : List Char} (hchain : ∀ q ∈ chain link head position symbols, q ∈ h.productions)
    (hsymbols : ∃ w, h.Yields symbols w) (hq : q ∈ chain link head position symbols) :
    ∃ w, h.Yields q.rhs w := by
  fun_induction chain link head position symbols with
  | case1 head position first second third rest ih =>
      obtain ⟨w, hword⟩ := hsymbols
      obtain ⟨start, others, rfl, hstart, hothers⟩ := Yields.split (u := [first]) hword
      simp only [List.forall_mem_cons] at hchain
      rcases List.mem_cons.mp hq with rfl | hq
      · exact ⟨start ++ others, hstart.append (.of_chain hchain.2 hothers)⟩
      · exact ih hchain.2 ⟨others, hothers⟩ hq
  | case2 =>
      rw [List.mem_singleton.mp hq]
      exact hsymbols

/-- A head that is reached leads to the symbols of its chain and to the links. -/
theorem mem_reached_of_chain {link : Nat → Char} {head : Char} {position : Nat}
    {symbols : List Char} (hchain : ∀ q ∈ chain link head position symbols, q ∈ h.productions)
    (hhead : head ∈ h.reached h.productions)
    (hlinks : ∀ i, i + 2 < symbols.length → link (position + i) ∈ h.vars) :
    (∀ c ∈ symbols, c ∈ h.vars → c ∈ h.reached h.productions) ∧
      ∀ i, i + 2 < symbols.length → link (position + i) ∈ h.reached h.productions := by
  fun_induction chain link head position symbols with
  | case1 head position first second third rest ih =>
      simp only [List.forall_mem_cons] at hchain
      obtain ⟨hfirst, hrest⟩ := hchain
      have hlink : link position ∈ h.reached h.productions := by
        refine mem_reached_of_production hfirst hhead ?_ (hlinks 0 (by simp))
        exact List.mem_cons_of_mem first (List.mem_singleton_self _)
      -- the links of the tail are the links from the next position on
      have hshift : ∀ i, link (position + (i + 1)) = link (position + 1 + i) := by
        intro i
        rw [Nat.add_assoc, Nat.add_comm 1 i]
      have hnext : ∀ i, i + 2 < (second :: third :: rest).length →
          link (position + 1 + i) ∈ h.vars := by
        intro i hi
        rw [← hshift]
        exact hlinks (i + 1) (by simpa using hi)
      obtain ⟨hsymbols, hothers⟩ := ih hrest hlink hnext
      constructor
      · intro c hc hvar
        rcases List.mem_cons.mp hc with rfl | hc
        · exact mem_reached_of_production hfirst hhead List.mem_cons_self hvar
        · exact hsymbols c hc hvar
      · intro i hi
        cases i with
        | zero => exact hlink
        | succ i =>
            rw [hshift]
            exact hothers i (by simpa using hi)
  | case2 head position symbols hend =>
      have hproduction := hchain _ (List.mem_singleton_self _)
      constructor
      · intro c hc hvar
        exact mem_reached_of_production hproduction hhead hc hvar
      · intro i hi
        have htwo := length_le_two hend
        omega

section Binary

variable {hterminal : ∀ helper ∈ g.helpers, name helper ∉ g.terminals} {acceptsEmpty : Bool}

/-- A variable that is reached leads to the variables and the helpers of its productions. -/
theorem mem_reached_binary (hp : p ∈ g.productions)
    (hlhs : p.lhs ∈ (g.binary name hterminal acceptsEmpty).reached (g.binaryProductions name)) :
    (∀ d ∈ p.rhs, d ∈ g.vars →
      d ∈ (g.binary name hterminal acceptsEmpty).reached (g.binaryProductions name)) ∧
      ∀ helper ∈ g.helpersOf p,
        name helper ∈ (g.binary name hterminal acceptsEmpty).reached (g.binaryProductions name) := by
  have hmem : ∀ q ∈ g.binarize name p, q ∈ g.binaryProductions name := fun q hq =>
    mem_binaryProductions.mpr (.inl ⟨p, hp, hq⟩)
  have hold : ∀ d ∈ g.vars, d ∈ g.binaryVariables name := fun d hd =>
    mem_binaryVariables.mpr (.inl hd)
  by_cases hshort : p.rhs.length < 2
  · rw [binarize, if_pos hshort] at hmem
    constructor
    · intro d hd hvar
      exact mem_reached_of_production (hmem p (List.mem_singleton_self p)) hlhs hd (hold d hvar)
    · intro helper hhelper
      rw [helpersOf, if_pos hshort] at hhelper
      exact absurd hhelper List.not_mem_nil
  · rw [binarize, if_neg hshort] at hmem
    have hlong : 2 ≤ p.rhs.length := Nat.not_lt.mp hshort
    have hlinks : ∀ i, i + 2 < (p.rhs.map (g.standIn name)).length →
        name (.link p (0 + i)) ∈ g.binaryVariables name := by
      intro i hi
      rw [List.length_map] at hi
      rw [Nat.zero_add]
      exact name_mem_binaryVariables (link_mem_helpers hp hi)
    obtain ⟨hsymbols, hreached⟩ :=
      mem_reached_of_chain (h := g.binary name hterminal acceptsEmpty) hmem hlhs hlinks
    have hstand : ∀ d ∈ p.rhs, g.standIn name d ∈
        (g.binary name hterminal acceptsEmpty).reached (g.binaryProductions name) := fun d hd =>
      hsymbols _ (List.mem_map_of_mem hd) (standIn_mem_binaryVariables hp hlong hd)
    constructor
    · intro d hd hvar
      have hsymbol := hstand d hd
      rwa [standIn, if_pos hvar] at hsymbol
    · intro helper hhelper
      rw [helpersOf, if_neg hshort, List.mem_append, List.mem_map, List.mem_map] at hhelper
      rcases hhelper with ⟨d, hd, rfl⟩ | ⟨position, hposition, rfl⟩
      · obtain ⟨hd, hvar⟩ := List.mem_filter.mp hd
        have hsymbol := hstand d hd
        rwa [standIn, if_neg (of_decide_eq_true hvar)] at hsymbol
      · have hlt := List.mem_range.mp hposition
        have hlink := hreached position (by rw [List.length_map]; omega)
        rwa [Nat.zero_add] at hlink

/-- The chains of productions that are of use are of use, and so are the helpers. -/
theorem AllUseful.binary (hg : g.AllUseful) : (g.binary name hterminal acceptsEmpty).AllUseful := by
  constructor
  · intro q hq
    rcases mem_binaryProductions.mp hq with ⟨p, hp, hbinary⟩ | ⟨c, hc, rfl⟩
    · obtain ⟨w, hword⟩ := hg.productive p hp
      have hmem : ∀ q ∈ g.binarize name p, q ∈ g.binaryProductions name := fun q hq =>
        mem_binaryProductions.mpr (.inl ⟨p, hp, hq⟩)
      unfold binarize at hbinary hmem
      split at hbinary
      next =>
        rw [List.mem_singleton.mp hbinary]
        exact ⟨w, hword.binary⟩
      next hshort =>
        rw [if_neg hshort] at hmem
        have hsymbols : (g.binary name hterminal acceptsEmpty).Yields
            (p.rhs.map (g.standIn name)) w :=
          .map_standIn hp (Nat.not_lt.mp hshort) (fun d hd => hd) hword.binary
        exact exists_yields_of_mem_chain hmem ⟨w, hsymbols⟩ hbinary
    · have hletter : c ∈ g.terminals := mem_terminals_of_mem_helpers hc
      exact ⟨[c], .of_terminal hletter⟩
  · have hold : ∀ c ∈ g.vars,
        c ∈ (g.binary name hterminal acceptsEmpty).reached (g.binaryProductions name) := by
      intro c hc
      refine reached_induction (motive := fun c =>
        c ∈ (g.binary name hterminal acceptsEmpty).reached (g.binaryProductions name)) ?_ ?_
          (hg.reached c hc)
      · exact start_mem_reached (g := g.binary name hterminal acceptsEmpty)
      · intro p hp hlhs d hd hvar
        exact (mem_reached_binary hp hlhs).1 d hd hvar
    intro c hc
    rcases mem_binaryVariables.mp hc with hvar | ⟨helper, hhelper, rfl⟩
    · exact hold c hvar
    · obtain ⟨p, hp, hneeded⟩ := mem_helpers.mp hhelper
      exact (mem_reached_binary hp (hold p.lhs (g.lhs_mem p hp))).2 helper hneeded

end Binary

/-! ## Normal forms -/

theorem helpersOf_eq_nil (hnormal : g.isNormal p) : g.helpersOf p = [] := by
  rcases isNormal_iff.mp hnormal with ⟨d, _, hrhs⟩ | ⟨a, ha, b, hb, hrhs⟩
  · simp [helpersOf, hrhs]
  · simp [helpersOf, hrhs, ha, hb]

theorem binarize_eq_singleton (hnormal : g.isNormal p) : g.binarize name p = [p] := by
  obtain ⟨lhs, rhs⟩ := p
  rcases isNormal_iff.mp hnormal with ⟨d, _, rfl⟩ | ⟨a, ha, b, hb, rfl⟩
  · simp [binarize]
  · simp [binarize, chain, standIn, ha, hb]

theorem not_mem_helpers (hform : g.isChomskyForm) (helper : Helper) : helper ∉ g.helpers := by
  intro hhelper
  obtain ⟨p, hp, hmem⟩ := mem_helpers.mp hhelper
  rw [helpersOf_eq_nil (isChomskyForm_iff.mp hform p hp)] at hmem
  exact absurd hmem List.not_mem_nil

theorem binary_eq {hterminal : ∀ helper ∈ g.helpers, name helper ∉ g.terminals}
    {acceptsEmpty : Bool} (hform : g.isChomskyForm) (hkind : g.kind = .contextFree) :
    g.binary name hterminal acceptsEmpty = { g with acceptsEmpty } := by
  have hvars : g.binaryVariables name = g.vars := by
    apply SortedSet.ext
    intro c
    rw [mem_binaryVariables]
    refine ⟨?_, .inl⟩
    rintro (hold | ⟨helper, hhelper, _⟩)
    · exact hold
    · exact absurd hhelper (not_mem_helpers hform helper)
  have hproductions : g.binaryProductions name = g.productions := by
    apply SortedSet.ext
    intro q
    rw [mem_binaryProductions]
    constructor
    · rintro (⟨p, hp, hq⟩ | ⟨c, hc, _⟩)
      · rw [binarize_eq_singleton (isChomskyForm_iff.mp hform p hp)] at hq
        exact List.mem_singleton.mp hq ▸ hp
      · exact absurd hc (not_mem_helpers hform _)
    · intro hq
      refine .inl ⟨q, hq, ?_⟩
      rw [binarize_eq_singleton (isChomskyForm_iff.mp hform q hq)]
      exact List.mem_singleton_self q
  ext1 <;> first | exact hvars | exact hproductions | exact hkind.symm | rfl

/-- With proper productions and everything of use, the removals remove the flag alone. -/
theorem reduced_eq (hproper : ∀ p ∈ g.productions, g.IsProper p) (huseful : g.AllUseful) :
    g.reduced = { g with acceptsEmpty := false } := by
  have hlambda : g.removeLambda = { g with acceptsEmpty := false } :=
    removeLambda_eq fun p hp => (hproper p hp).1
  have hunit : g.removeLambda.removeUnit = { g with acceptsEmpty := false } := by
    rw [hlambda]
    exact removeUnit_eq_self fun p hp => (hproper p hp).2
  rw [reduced, hunit]
  exact (huseful.withFlag false).removeUseless_eq

theorem isProper_of_isNormal (hnormal : g.isNormal p) : g.IsProper p := by
  refine ⟨ne_nil_of_isNormal hnormal, ?_⟩
  intro hunit
  obtain ⟨d, hd, hrhs⟩ := isUnit_iff.mp hunit
  rcases isNormal_iff.mp hnormal with ⟨e, he, hrhs'⟩ | ⟨a, _, b, _, hrhs'⟩
  · rw [hrhs, List.singleton_inj] at hrhs'
    exact he (hrhs' ▸ hd)
  · rw [hrhs] at hrhs'
    cases hrhs'

/-- A normal form in which everything is of use is its own normal form, with its flag. -/
theorem toChomskyForm_eq_self (hform : g.isChomskyForm) (hkind : g.kind = .contextFree)
    (huseful : g.AllUseful) : g.toChomskyForm = .ok g := by
  have hproper : ∀ p ∈ g.productions, g.IsProper p := fun p hp =>
    isProper_of_isNormal (isChomskyForm_iff.mp hform p hp)
  have hreduced := reduced_eq hproper huseful
  have hform' : g.reduced.isChomskyForm := hreduced ▸ hform
  have hkind' : g.reduced.kind = .contextFree := hreduced ▸ hkind
  have hsize : g.reduced.helpers.size = 0 :=
    Numbering.size_eq_zero_iff.mpr (not_mem_helpers hform')
  have hflag : (g.acceptsEmpty || decide (g.start ∈ g.nullable)) = g.acceptsEmpty := by
    have hstart : g.start ∉ g.nullable :=
      not_mem_nullable fun p hp => ne_nil_of_isNormal (isChomskyForm_iff.mp hform p hp)
    simp [hstart]
  dsimp only [toChomskyForm]
  split
  next =>
    rw [binary_eq hform' hkind', hflag]
    apply congrArg Except.ok
    ext1 <;> simp [hreduced]
  next hfew => exact absurd (hsize ▸ Nat.zero_le _) hfew

/-- The normal form is made of a grammar in which everything is of use. -/
theorem allUseful_of_toChomskyForm {normal : Grammar} (hnormal : g.toChomskyForm = .ok normal) :
    normal.AllUseful ∧ normal.kind = .contextFree := by
  dsimp only [toChomskyForm] at hnormal
  split at hnormal
  next =>
    cases hnormal
    exact ⟨(allUseful_removeUseless _).binary, rfl⟩
  next => cases hnormal

/-- Normalizing a second time changes nothing: a normal form is its own normal form, and a removal
after itself removes nothing. -/
theorem normalization_idempotent (g : Grammar) :
    (∀ normal, g.toChomskyForm = .ok normal → normal.toChomskyForm = .ok normal) ∧
      g.removeLambda.removeLambda = g.removeLambda ∧ g.removeUnit.removeUnit = g.removeUnit ∧
        g.removeUseless.removeUseless = g.removeUseless := by
  refine ⟨?_, g.removeLambda_removeLambda, g.removeUnit_removeUnit, g.removeUseless_removeUseless⟩
  intro normal hnormal
  obtain ⟨huseful, hkind⟩ := allUseful_of_toChomskyForm hnormal
  exact toChomskyForm_eq_self (toChomskyForm_spec hnormal).1 hkind huseful

theorem normalization_idempotent_nested : ∃ normal, nested.toChomskyForm = .ok normal ∧
    normal.toChomskyForm = .ok normal ∧ normal.acceptsEmpty ∧
      normal.Generates 's' ['A', 'B'] := by
  obtain ⟨normal, hnormal⟩ := exists_toChomskyForm_nested
  obtain ⟨_, _, hflag, hyields⟩ := toChomskyForm_spec hnormal
  have hword : nested.Yields ['s'] ['A', 'B'] :=
    .of_production (by decide : ⟨'s', ['A', 's', 'B']⟩ ∈ nested.productions)
      (.terminal (by decide) (yields_nested_nil.append (.of_terminal (by decide))))
  refine ⟨normal, hnormal, (normalization_idempotent nested).1 normal hnormal, ?_, ?_⟩
  · exact hflag.mpr (.inr yields_nested_nil)
  · exact yields_iff.mp ((hyields _).mpr ⟨hword, List.cons_ne_nil _ _⟩)

end LanguageTheory.Grammar
