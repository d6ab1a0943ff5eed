import LanguageTheory.Proofs.Grammar.Conversion
import LanguageTheory.Proofs.Grammar.Decision
import LanguageTheory.Proofs.Numbering.Ranks
import Mathlib.Algebra.BigOperators.Group.List.Basic
import Mathlib.Data.List.Nodup
import Mathlib.Data.Set.Card

/-!
# How many names the normal form needs

A name is needed for every terminal of a production of two or more symbols, however often it occurs,
and for every symbol of such a production but two (`size_helpers`). No name is taken twice and no
production of the normal form comes from two sources, so there are as many new variables as names,
and as many new productions (`size_binaryVariables`, `size_binaryProductions`).
-/

namespace LanguageTheory.Grammar

variable {g : Grammar} {p q : Production} {name : Helper → Char} {c : Char} {position : Nat}

/-! ## Demand -/

/-- The productions of two or more symbols. -/
def longProductions (g : Grammar) : SortedSet Production :=
  g.productions.filter fun p => 2 ≤ p.rhs.length

/-- The terminals that occur in productions of two or more symbols. -/
def longTerminals (g : Grammar) : SortedSet Char :=
  g.terminals.filter fun c => g.longProductions.toList.any fun p => c ∈ p.rhs

/-- How many names the conversion needs: one for every terminal of the long productions, and one for
every symbol of a long production but two. -/
def namesNeeded (g : Grammar) : Nat :=
  g.longTerminals.size + (g.longProductions.toList.map fun p => p.rhs.length - 2).sum

theorem mem_longProductions : p ∈ g.longProductions ↔ p ∈ g.productions ∧ 2 ≤ p.rhs.length := by
  simp [longProductions]

theorem mem_longTerminals : c ∈ g.longTerminals ↔
    c ∈ g.terminals ∧ ∃ p ∈ g.productions, 2 ≤ p.rhs.length ∧ c ∈ p.rhs := by
  simp [longTerminals, SortedSet.mem_toList, mem_longProductions, and_assoc]

/-! ## Helpers -/

theorem terminal_mem_helpers_iff : .terminal c ∈ g.helpers ↔ c ∈ g.longTerminals := by
  rw [mem_longTerminals]
  constructor
  · intro hc
    refine ⟨mem_terminals_of_mem_helpers hc, ?_⟩
    obtain ⟨p, hp, hhelper⟩ := mem_helpers.mp hc
    obtain ⟨hlong, hmem, _⟩ := terminal_mem_helpersOf_iff.mp hhelper
    exact ⟨p, hp, hlong, hmem⟩
  · rintro ⟨hterminal, p, hp, hlong, hc⟩
    exact terminal_mem_helpers hp hlong hc (g.disjoint c hterminal)

theorem link_mem_helpers_iff :
    .link p position ∈ g.helpers ↔ p ∈ g.productions ∧ position + 2 < p.rhs.length := by
  constructor
  · intro hlink
    obtain ⟨p', hp, hhelper⟩ := mem_helpers.mp hlink
    obtain ⟨rfl, hposition⟩ := link_mem_helpersOf_iff.mp hhelper
    exact ⟨hp, hposition⟩
  · rintro ⟨hp, hposition⟩
    exact link_mem_helpers hp hposition

/-- The helpers, sorted by what they are for. -/
def helperList (g : Grammar) : List Helper :=
  g.longTerminals.toList.map .terminal ++
    g.longProductions.toList.flatMap fun p => (List.range (p.rhs.length - 2)).map (.link p)

theorem mem_helperList {helper : Helper} : helper ∈ g.helperList ↔ helper ∈ g.helpers := by
  cases helper with
  | terminal c => simp [helperList, terminal_mem_helpers_iff, SortedSet.mem_toList]
  | link p position =>
      simp only [helperList, List.mem_append, List.mem_map, reduceCtorEq, and_false, exists_false,
        false_or, List.mem_flatMap, SortedSet.mem_toList, mem_longProductions, List.mem_range,
        Helper.link.injEq, link_mem_helpers_iff]
      constructor
      · rintro ⟨p, ⟨hp, _⟩, i, hi, rfl, rfl⟩
        exact ⟨hp, by omega⟩
      · rintro ⟨hp, hposition⟩
        exact ⟨p, ⟨hp, by omega⟩, position, by omega, rfl, rfl⟩

theorem nodup_helperList : g.helperList.Nodup := by
  rw [helperList, List.nodup_append']
  refine ⟨?_, ?_, ?_⟩
  · exact g.longTerminals.nodup.map fun _ _ h => Helper.terminal.inj h
  · rw [List.nodup_flatMap]
    constructor
    · intro p _
      exact List.nodup_range.map fun _ _ h => (Helper.link.inj h).2
    · refine g.longProductions.nodup.imp ?_
      intro p q hne helper hp hq
      obtain ⟨_, _, rfl⟩ := List.mem_map.mp hp
      obtain ⟨_, _, hsame⟩ := List.mem_map.mp hq
      exact hne (Helper.link.inj hsame).1.symm
  · intro helper hterminal hlink
    obtain ⟨_, _, rfl⟩ := List.mem_map.mp hterminal
    obtain ⟨_, _, hmem⟩ := List.mem_flatMap.mp hlink
    obtain ⟨_, _, hsame⟩ := List.mem_map.mp hmem
    cases hsame

theorem size_helpers (g : Grammar) : g.helpers.size = g.namesNeeded := by
  rw [Numbering.size_eq_of_nodup nodup_helperList fun _ => mem_helperList.symm, helperList,
    List.length_append, List.length_map, List.length_flatMap, SortedSet.length_toList]
  simp only [List.length_map, List.length_range]
  rfl

/-! ## Variables -/

theorem size_binaryVariables (hname : g.Fresh name) :
    (g.binaryVariables name).size = g.vars.size + g.helpers.size := by
  have hnodup : (g.vars.toList ++ g.helpers.toList.map name).Nodup := by
    rw [List.nodup_append']
    refine ⟨g.vars.nodup, ?_, ?_⟩
    · refine List.Nodup.map_on ?_ g.helpers.nodup_toList
      intro helper hhelper other hother hsame
      exact hname.injective helper hhelper other hother hsame
    · intro c hvar hnew
      obtain ⟨helper, hhelper, rfl⟩ := List.mem_map.mp hnew
      exact hname.not_variable helper hhelper hvar
  have hmem : ∀ c, c ∈ g.binaryVariables name ↔ c ∈ g.vars.toList ++ g.helpers.toList.map name := by
    intro c
    rw [mem_binaryVariables, List.mem_append, List.mem_map]
    rfl
  rw [SortedSet.size_eq_of_nodup hnodup hmem, List.length_append, List.length_map,
    SortedSet.length_toList, ← Numbering.size_eq_length]

/-! ## Productions -/

/-- A chain goes from its head through its links. -/
theorem map_lhs_chain {link : Nat → Char} {head : Char} {symbols : List Char} :
    (chain link head position symbols).map Production.lhs =
      head :: (List.range (symbols.length - 2)).map fun i => link (position + i) := by
  fun_induction chain link head position symbols with
  | case1 head position first second third rest ih =>
      have hlength : (first :: second :: third :: rest).length - 2 =
          (second :: third :: rest).length - 2 + 1 := rfl
      rw [List.map_cons, ih, hlength, List.range_succ_eq_map, List.map_cons, List.map_map]
      simp only [Function.comp_def, Nat.succ_eq_add_one, Nat.add_assoc, Nat.add_comm 1,
        Nat.add_zero]
  | case2 head position symbols hend =>
      rw [Nat.sub_eq_zero_of_le (length_le_two hend)]
      rfl

/-- The heads of what becomes of a production: its own left-hand side and its links. -/
theorem map_lhs_binarize : (g.binarize name p).map Production.lhs =
    p.lhs :: (List.range (p.rhs.length - 2)).map fun i => name (.link p i) := by
  unfold binarize
  split
  next hshort =>
    have hnone : p.rhs.length - 2 = 0 := by omega
    rw [hnone]
    rfl
  next =>
    rw [map_lhs_chain, List.length_map]
    simp only [Nat.zero_add]

theorem length_binarize : (g.binarize name p).length = p.rhs.length - 2 + 1 := by
  have hlength : ((g.binarize name p).map Production.lhs).length = _ :=
    congrArg List.length map_lhs_binarize
  simpa using hlength

/-- Left-hand sides tell the productions of one chain apart. -/
theorem nodup_binarize (hname : g.Fresh name) (hp : p ∈ g.productions) :
    (g.binarize name p).Nodup := by
  refine List.Nodup.of_map Production.lhs ?_
  rw [map_lhs_binarize, List.nodup_cons]
  have hlink : ∀ i ∈ List.range (p.rhs.length - 2), .link p i ∈ g.helpers := by
    intro i hi
    have hlt := List.mem_range.mp hi
    exact link_mem_helpers hp (by omega)
  constructor
  · intro hmem
    obtain ⟨i, hi, hsame⟩ := List.mem_map.mp hmem
    exact hname.not_variable _ (hlink i hi) (hsame ▸ g.lhs_mem p hp)
  · refine List.Nodup.map_on ?_ List.nodup_range
    intro i hi j hj hsame
    exact (Helper.link.inj (hname.injective _ (hlink i hi) _ (hlink j hj) hsame)).2

/-- No production comes of two old ones. -/
theorem eq_of_mem_binarize {p' : Production} (hname : g.Fresh name) (hp : p ∈ g.productions)
    (hp' : p' ∈ g.productions) (hq : q ∈ g.binarize name p) (hq' : q ∈ g.binarize name p') :
    p = p' := by
  rcases mem_binarize_meaning hname hp hq with ⟨hlhs, hrhs⟩ | ⟨i, hi, hlhs, _⟩
  · rcases mem_binarize_meaning hname hp' hq' with ⟨hlhs', hrhs'⟩ | ⟨j, hj, hlhs', _⟩
    · obtain ⟨lhs, rhs⟩ := p
      obtain ⟨lhs', rhs'⟩ := p'
      exact Production.mk.injEq _ _ _ _ ▸ ⟨hlhs.symm.trans hlhs', hrhs.symm.trans hrhs'⟩
    · have hold : name (.link p' j) ∈ g.vars := hlhs' ▸ hlhs ▸ g.lhs_mem p hp
      exact absurd hold (hname.not_variable _ (link_mem_helpers hp' hj))
  · have hlink := link_mem_helpers hp hi
    rcases mem_binarize_meaning hname hp' hq' with ⟨hlhs', _⟩ | ⟨j, hj, hlhs', _⟩
    · have hold : name (.link p i) ∈ g.vars := hlhs ▸ hlhs' ▸ g.lhs_mem p' hp'
      exact absurd hold (hname.not_variable _ hlink)
    · have hlink' := link_mem_helpers hp' hj
      have hsame := hname.injective _ hlink _ hlink' (hlhs.symm.trans hlhs')
      exact (Helper.link.inj hsame).1

/-- No production of a helper for a terminal comes of an old production. -/
theorem terminalProduction_not_mem_binarize (hname : g.Fresh name) (hc : .terminal c ∈ g.helpers)
    (hp : p ∈ g.productions) : ⟨name (.terminal c), [c]⟩ ∉ g.binarize name p := by
  intro hq
  rcases mem_binarize_meaning hname hp hq with ⟨hlhs, _⟩ | ⟨i, hi, hlhs, _⟩
  · apply hname.not_variable _ hc
    exact (congrArg (· ∈ g.vars) hlhs).mpr (g.lhs_mem p hp)
  · have hsame := hname.injective _ hc _ (link_mem_helpers hp hi) hlhs
    cases hsame

/-- The productions of the normal form, sorted by what they come of. -/
def binaryList (g : Grammar) (name : Helper → Char) : List Production :=
  g.productions.toList.flatMap (g.binarize name) ++
    g.longTerminals.toList.map fun c => ⟨name (.terminal c), [c]⟩

theorem mem_binaryList : q ∈ g.binaryList name ↔ q ∈ g.binaryProductions name := by
  simp only [binaryList, mem_binaryProductions, List.mem_append, List.mem_flatMap, List.mem_map,
    SortedSet.mem_toList, terminal_mem_helpers_iff, eq_comm]

theorem nodup_binaryList (hname : g.Fresh name) : (g.binaryList name).Nodup := by
  rw [binaryList, List.nodup_append']
  refine ⟨?_, ?_, ?_⟩
  · rw [List.nodup_flatMap]
    constructor
    · intro p hp
      exact nodup_binarize hname hp
    · refine g.productions.nodup.imp_of_mem ?_
      intro p p' hp hp' hne q hq hq'
      exact hne (eq_of_mem_binarize hname hp hp' hq hq')
  · -- the terminal stands on the right
    refine g.longTerminals.nodup.map ?_
    intro c d hsame
    exact (List.cons.inj (Production.mk.inj hsame).2).1
  · intro q hq hterminal
    obtain ⟨p, hp, hbinary⟩ := List.mem_flatMap.mp hq
    obtain ⟨c, hc, rfl⟩ := List.mem_map.mp hterminal
    exact terminalProduction_not_mem_binarize hname (terminal_mem_helpers_iff.mpr hc) hp hbinary

/-- Short productions have no symbol beyond two. -/
theorem sum_longProductions (g : Grammar) :
    (g.longProductions.toList.map fun p => p.rhs.length - 2).sum =
      (g.productions.toList.map fun p => p.rhs.length - 2).sum := by
  have hshort : ((g.productions.toList.filter fun p => ¬ 2 ≤ p.rhs.length).map
      fun p => p.rhs.length - 2).sum = 0 := by
    apply List.sum_eq_zero
    intro n hn
    obtain ⟨p, hp, rfl⟩ := List.mem_map.mp hn
    have hlength := of_decide_eq_true (List.mem_filter.mp hp).2
    omega
  have hsplit := List.sum_map_filter_add_sum_map_filter_not (fun p => 2 ≤ p.rhs.length)
    (fun p => p.rhs.length - 2) g.productions.toList
  rw [hshort, Nat.add_zero] at hsplit
  exact hsplit

/-- One production for every old one, and one for every name. -/
theorem size_binaryProductions (hname : g.Fresh name) :
    (g.binaryProductions name).size = g.productions.size + g.namesNeeded := by
  rw [SortedSet.size_eq_of_nodup (nodup_binaryList hname) fun _ => mem_binaryList.symm, binaryList,
    List.length_append, List.length_flatMap, List.length_map, SortedSet.length_toList, namesNeeded,
    sum_longProductions]
  simp only [length_binarize, List.sum_map_add, List.map_const', List.sum_replicate_nat,
    SortedSet.length_toList, Nat.mul_one]
  omega

/-! ## Exactness -/

/-- The upper-case characters that are no symbols of the grammar. -/
def freeNames (g : Grammar) : Set Char :=
  {c | Uppercase.isUppercase c ∧ c ∉ g.terminals ∧ c ∉ g.vars}

theorem ncard_freeNames (g : Grammar) : g.freeNames.ncard = g.unusedNames.length := by
  have hset : g.freeNames = (g.unusedNames.toFinset : Set Char) := by
    ext c
    rw [List.coe_toFinset]
    exact mem_unusedNames.symm
  rw [hset, Set.ncard_coe_finset, List.toFinset_card_of_nodup g.nodup_unusedNames]

/-- The normal form has the helpers beside what it is made of. -/
theorem sizes_toChomskyForm {normal : Grammar} (h : g.toChomskyForm = .ok normal) :
    normal.vars.size = g.reduced.vars.size + g.reduced.namesNeeded ∧
      normal.productions.size = g.reduced.productions.size + g.reduced.namesNeeded ∧
      (∀ c ∈ g.reduced.vars, c ∈ normal.vars) ∧
      ∀ c ∈ normal.vars, c ∈ g.reduced.vars ∨ c ∈ g.reduced.freeNames := by
  dsimp only [toChomskyForm] at h
  split at h
  next henough =>
    cases h
    have hfresh := fresh_nameOf henough
    refine ⟨?_, size_binaryProductions hfresh, ?_, ?_⟩
    · exact (size_binaryVariables hfresh).trans (congrArg _ (size_helpers g.reduced))
    · intro c hc
      exact mem_binaryVariables.mpr (.inl hc)
    · intro c hc
      rcases mem_binaryVariables.mp hc with hold | ⟨helper, hhelper, rfl⟩
      · exact .inl hold
      · obtain ⟨name, hunused, hname⟩ := exists_nameOf hhelper henough
        rw [hname, Option.getD_some]
        exact .inr (mem_unusedNames.mp (List.mem_toArray.mp hunused))
  next => cases h

/-- The conversion fails exactly when fewer names are free than needed, and adds exactly as many
variables as names are needed, all of them free names, and as many productions. It may be done in
one pass, which takes the names one by one. -/
theorem toChomskyForm_exact (g : Grammar) :
    (∀ fault, g.toChomskyForm = .error fault ↔
      fault = .variablesExhausted ∧ g.reduced.freeNames.ncard < g.reduced.namesNeeded) ∧
    ((∃ normal, g.toChomskyForm = .ok normal) ↔
      g.reduced.namesNeeded ≤ g.reduced.freeNames.ncard) ∧
    (∀ normal, g.toChomskyForm = .ok normal →
      normal.vars.size = g.reduced.vars.size + g.reduced.namesNeeded ∧
        normal.productions.size = g.reduced.productions.size + g.reduced.namesNeeded ∧
        (∀ c ∈ g.reduced.vars, c ∈ normal.vars) ∧
        ∀ c ∈ normal.vars, c ∈ g.reduced.vars ∨ c ∈ g.reduced.freeNames) ∧
    g.convert = g.toChomskyForm.map fun normal => (normal.vars, normal.productions) := by
  refine ⟨?_, ?_, fun _ => sizes_toChomskyForm, g.convert_eq⟩
  · intro fault
    rw [ncard_freeNames, ← size_helpers, ← List.size_toArray]
    dsimp only [toChomskyForm]
    split
    next henough =>
      refine iff_of_false ?_ fun h => Nat.not_lt.mpr henough h.2
      intro hfault
      cases hfault
    next hfew => rw [Except.error.injEq, and_iff_left (Nat.lt_of_not_le hfew), eq_comm]
  · rw [exists_toChomskyForm_iff, ncard_freeNames, size_helpers]

/-- The grammar `nested` where all upper-case characters are terminals. -/
def crowded : Grammar :=
  { nested with
    terminals := .ofList Uppercase.all
    disjoint := by
      have hlower : ∀ c ∈ nested.vars.toList, !Uppercase.isUppercase c :=
        List.all_eq_true.mp (by decide)
      intro c hc hvar
      have hupper := Uppercase.mem_all.mp (SortedSet.mem_ofList.mp hc)
      exact absurd (hlower c hvar) (by simp [hupper])
    rhs_mem := by
      have hupper : ∀ c ∈ nested.terminals.toList, Uppercase.isUppercase c :=
        List.all_eq_true.mp (by decide)
      intro p hp c hc
      refine (nested.rhs_mem p hp c hc).imp_right fun hterminal => ?_
      exact SortedSet.mem_ofList.mpr (Uppercase.mem_all.mpr (hupper c hterminal)) }

theorem mem_terminals_crowded : c ∈ crowded.terminals ↔ Uppercase.isUppercase c :=
  SortedSet.mem_ofList.trans Uppercase.mem_all

theorem freeNames_crowded : crowded.reduced.freeNames = ∅ := by
  apply Set.eq_empty_of_forall_notMem
  rintro c ⟨hupper, hforeign, _⟩
  exact hforeign (mem_terminals_crowded.mpr hupper)

/-- The removals keep a production that needs names. -/
theorem mem_productions_reduced_crowded : ⟨'s', ['A', 's', 'B']⟩ ∈ crowded.reduced.productions := by
  have hA : 'A' ∈ crowded.terminals := mem_terminals_crowded.mpr (by decide)
  have hB : 'B' ∈ crowded.terminals := mem_terminals_crowded.mpr (by decide)
  have hold : ⟨'s', ['A', 's', 'B']⟩ ∈ crowded.productions :=
    (by decide : ⟨'s', ['A', 's', 'B']⟩ ∈ nested.productions)
  have hkept : ⟨'s', ['A', 's', 'B']⟩ ∈ crowded.removeLambda.productions :=
    mem_lambdaFreeProductions.mpr ⟨_, hold, rfl, mem_variants_iff.mpr (.keep (.keep (.keep .nil))),
      List.cons_ne_nil _ _⟩
  have hunit : ¬ crowded.removeLambda.isUnit ⟨'s', ['A', 's', 'B']⟩ := by simp [isUnit_iff]
  have hinner : crowded.Yields ['s'] ['A'] :=
    .of_production (by decide : ⟨'s', ['t']⟩ ∈ nested.productions)
      (.of_production (by decide : ⟨'t', ['A']⟩ ∈ nested.productions) (.of_terminal hA))
  have hword : crowded.removeLambda.Yields ['A', 's', 'B'] ['A', 'A', 'B'] :=
    .terminal hA ((yields_removeLambda_iff.mpr ⟨hinner, List.cons_ne_nil _ _⟩).append
      (.of_terminal hB))
  have hfree := mem_unitFreeProductions_of_not_isUnit hkept hunit
  exact SortedSet.mem_filter.mpr ⟨mem_productive_of_yields hfree (yields_removeUnit_iff.mpr hword),
    decide_eq_true start_mem_reached⟩

theorem namesNeeded_crowded_pos : 0 < crowded.reduced.namesNeeded := by
  have hA : 'A' ∉ crowded.reduced.vars :=
    crowded.reduced.disjoint 'A' (mem_terminals_crowded.mpr (by decide))
  have hhelper := terminal_mem_helpers mem_productions_reduced_crowded (by decide)
    List.mem_cons_self hA
  rw [← size_helpers, Nat.pos_iff_ne_zero, Ne, Numbering.size_eq_zero_iff]
  exact fun hnone => hnone _ hhelper

theorem toChomskyForm_exact_nested : crowded.toChomskyForm = .error .variablesExhausted ∧
    ∃ normal, nested.toChomskyForm = .ok normal ∧
      normal.vars.size = 4 ∧ normal.productions.size = 6 := by
  constructor
  · refine ((toChomskyForm_exact crowded).1 _).mpr ⟨rfl, ?_⟩
    rw [freeNames_crowded, Set.ncard_empty]
    exact namesNeeded_crowded_pos
  · obtain ⟨_, hsucceeds, hsizes, _⟩ := toChomskyForm_exact nested
    rw [reduced_nested, ncard_freeNames, ← size_helpers, size_helpers_bracketed] at hsucceeds
    rw [reduced_nested, ← size_helpers, size_helpers_bracketed] at hsizes
    obtain ⟨normal, hnormal⟩ := hsucceeds.mpr three_le_unusedNames_bracketed
    obtain ⟨hvars, hproductions, _⟩ := hsizes normal hnormal
    exact ⟨normal, hnormal, hvars, hproductions⟩

end LanguageTheory.Grammar
