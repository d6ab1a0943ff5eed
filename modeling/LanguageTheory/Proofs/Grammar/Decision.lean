import LanguageTheory.Proofs.Grammar.ChomskyForm
import LanguageTheory.Proofs.Grammar.FreshNames
import LanguageTheory.Proofs.Grammar.LambdaFree
import LanguageTheory.Proofs.Grammar.Membership
import LanguageTheory.Proofs.Grammar.UnitFree
import LanguageTheory.Proofs.Grammar.Useful
import Mathlib.Data.List.Perm.Basic

/-!
# Deciding membership by normal form

The three removals leave productions that are neither empty nor unit, and from these the chains make
productions in normal form. The words are the same at every stage, but for the empty one, which the
last stage puts back; so the normal form answers for the grammar that it was made of.
-/

namespace LanguageTheory.Grammar

variable {g : Grammar} {p q : Production} {name : Helper → Char} {w : List Char} {c : Char}

/-! ## Stages -/

/-- A production that is neither empty nor unit. -/
def IsProper (g : Grammar) (p : Production) : Prop := p.rhs ≠ [] ∧ ¬ g.isUnit p

theorem isProper_of_mem_reduced (hp : p ∈ g.reduced.productions) : g.reduced.IsProper p := by
  obtain ⟨hproductive, _⟩ := SortedSet.mem_filter.mp hp
  obtain ⟨_, d, _, hold, hunit⟩ := mem_unitFreeProductions.mp (mem_productive.mp hproductive).1
  obtain ⟨_, _, _, _, hne⟩ := mem_lambdaFreeProductions.mp hold
  refine ⟨hne, ?_⟩
  intro hstill
  obtain ⟨e, he, hrhs⟩ := isUnit_iff.mp hstill
  exact hunit (isUnit_iff.mpr ⟨e, mem_variables_of_mem_reached he, hrhs⟩)

theorem yields_reduced_iff : g.reduced.Yields [g.start] w ↔ g.Yields [g.start] w ∧ w ≠ [] := by
  have huseless : g.reduced.Yields [g.start] w ↔ g.removeLambda.removeUnit.Yields [g.start] w :=
    yields_removeUseless_iff g.reduced.start_mem
  rw [huseless, yields_removeUnit_iff, yields_removeLambda_iff]

/-! ## Form -/

theorem length_of_mem_chain {link : Nat → Char} {head : Char} {position : Nat}
    {symbols : List Char} (hlong : 2 ≤ symbols.length)
    (hq : q ∈ chain link head position symbols) : q.rhs.length = 2 := by
  fun_induction chain link head position symbols with
  | case1 head position first second third rest ih =>
      rcases List.mem_cons.mp hq with rfl | hq
      · rfl
      · exact ih (by simp) hq
  | case2 head position symbols hend =>
      rw [List.mem_singleton.mp hq]
      exact Nat.le_antisymm (length_le_two hend) hlong

/-- Chains of proper productions, and helpers for terminals, are in the form. -/
theorem isChomskyForm_binary {hterminal : ∀ helper ∈ g.helpers, name helper ∉ g.terminals}
    {acceptsEmpty : Bool} (hproper : ∀ p ∈ g.productions, g.IsProper p) :
    (g.binary name hterminal acceptsEmpty).isChomskyForm := by
  have hterm : ∀ c ∈ g.terminals, c ∉ g.binaryVariables name := by
    intro c hc hvar
    rcases mem_binaryVariables.mp hvar with hold | ⟨helper, hhelper, rfl⟩
    · exact g.disjoint c hc hold
    · exact hterminal helper hhelper hc
  rw [isChomskyForm_iff]
  intro q hq
  rw [isNormal_iff]
  rcases mem_binaryProductions.mp hq with ⟨p, hp, hbinary⟩ | ⟨c, hc, rfl⟩
  · by_cases hshort : p.rhs.length < 2
    · -- a short production that is proper has one symbol, a terminal
      obtain ⟨hne, hunit⟩ := hproper p hp
      obtain ⟨d, hrhs⟩ : ∃ d, p.rhs = [d] := by
        have hpos : 0 < p.rhs.length := List.length_pos_iff.mpr hne
        exact List.length_eq_one_iff.mp (by omega)
      have hvar : d ∉ g.vars := fun hd => hunit (isUnit_iff.mpr ⟨d, hd, hrhs⟩)
      have hmem : d ∈ p.rhs := hrhs ▸ List.mem_singleton_self d
      rw [binarize, if_pos hshort] at hbinary
      obtain rfl := List.mem_singleton.mp hbinary
      exact .inl ⟨d, hterm d ((g.rhs_mem q hp d hmem).resolve_left hvar), hrhs⟩
    · have hlong : 2 ≤ (p.rhs.map (g.standIn name)).length := by
        rw [List.length_map]
        exact Nat.not_lt.mp hshort
      obtain ⟨_, hvars⟩ := (mem_binarize hp hbinary).resolve_left fun h => hshort h.2
      rw [binarize, if_neg hshort] at hbinary
      obtain ⟨a, b, hrhs⟩ := List.length_eq_two.mp (length_of_mem_chain hlong hbinary)
      have ha : a ∈ q.rhs := hrhs ▸ List.mem_cons_self
      have hb : b ∈ q.rhs := hrhs ▸ List.mem_cons_of_mem a (List.mem_singleton_self b)
      exact .inr ⟨a, hvars a ha, b, hvars b hb, hrhs⟩
  · exact .inl ⟨c, hterm c (mem_terminals_of_mem_helpers hc), rfl⟩

/-! ## Names -/

theorem nameOf_inj {helpers : Numbering Helper} {names : Array Char} {a b : Helper}
    (hnames : names.toList.Nodup) (ha : nameOf helpers names a = some c)
    (hb : nameOf helpers names b = some c) : a = b := by
  unfold nameOf at ha hb
  obtain ⟨i, hi, hai⟩ := Option.bind_eq_some_iff.mp ha
  obtain ⟨j, hj, hbj⟩ := Option.bind_eq_some_iff.mp hb
  have hbound : i.val < names.toList.length := by
    rw [Array.length_toList]
    exact (Array.getElem?_eq_some_iff.mp hai).1
  have hsame : i = j := by
    apply Fin.ext
    apply (List.getElem?_inj hbound hnames).mp
    rw [Array.getElem?_toList, Array.getElem?_toList, hai, hbj]
  rw [← Numbering.rank?_eq_some_iff.mp hi, ← Numbering.rank?_eq_some_iff.mp hj, hsame]

theorem fresh_nameOf (henough : g.helpers.size ≤ g.unusedNames.toArray.size) :
    g.Fresh fun helper => (nameOf g.helpers g.unusedNames.toArray helper).getD g.start := by
  have hnamed : ∀ helper ∈ g.helpers, ∃ name ∈ g.unusedNames,
      nameOf g.helpers g.unusedNames.toArray helper = some name := by
    intro helper hhelper
    obtain ⟨name, hname, heq⟩ := exists_nameOf hhelper henough
    exact ⟨name, List.mem_toArray.mp hname, heq⟩
  constructor
  · intro helper hhelper
    obtain ⟨name, hunused, hname⟩ := hnamed helper hhelper
    rw [hname, Option.getD_some]
    exact (mem_unusedNames.mp hunused).2.1
  · intro helper hhelper
    obtain ⟨name, hunused, hname⟩ := hnamed helper hhelper
    rw [hname, Option.getD_some]
    exact (mem_unusedNames.mp hunused).2.2
  · intro helper hhelper other hother hsame
    obtain ⟨name, _, hname⟩ := hnamed helper hhelper
    obtain ⟨name', _, hname'⟩ := hnamed other hother
    rw [hname, hname', Option.getD_some, Option.getD_some] at hsame
    exact nameOf_inj g.nodup_unusedNames hname (hsame ▸ hname')

/-! ## Conversion -/

/-- The conversion succeeds when there are names enough. -/
theorem exists_toChomskyForm_iff : (∃ normal, g.toChomskyForm = .ok normal) ↔
    g.reduced.helpers.size ≤ g.reduced.unusedNames.length := by
  rw [← List.size_toArray]
  dsimp only [toChomskyForm]
  split
  next henough => exact iff_of_true ⟨_, rfl⟩ henough
  next henough =>
    refine iff_of_false ?_ henough
    rintro ⟨normal, h⟩
    cases h

/-- The normal form has the start variable of the grammar and the words of that but for the empty
one, which it accepts on its own. -/
theorem toChomskyForm_spec {normal : Grammar} (h : g.toChomskyForm = .ok normal) :
    normal.isChomskyForm ∧ normal.start = g.start ∧
      (normal.acceptsEmpty ↔ g.acceptsEmpty ∨ g.Yields [g.start] []) ∧
        ∀ w, normal.Yields [g.start] w ↔ g.Yields [g.start] w ∧ w ≠ [] := by
  dsimp only [toChomskyForm] at h
  split at h
  next henough =>
    cases h
    refine ⟨?_, rfl, ?_, ?_⟩
    · exact isChomskyForm_binary fun p hp => isProper_of_mem_reduced hp
    · have hflag : (g.acceptsEmpty || decide (g.start ∈ g.nullable)) = true ↔
          g.acceptsEmpty ∨ g.Yields [g.start] [] := by
        rw [Bool.or_eq_true, decide_eq_true_eq, mem_nullable_iff]
      exact hflag
    · intro w
      -- the conversion starts from the reduced grammar, which has lost the empty word
      exact (yields_binary_iff (fresh_nameOf henough) g.reduced.start_mem).trans yields_reduced_iff
  next => cases h

/-! ## Decision -/

/-- The normal form of a grammar answers for its words, and it always answers. -/
theorem isMember_toChomskyForm {normal : Grammar} (h : g.toChomskyForm = .ok normal) :
    normal.isChomskyForm ∧ ∀ w,
      (normal.isMember w = .ok true ↔ g.Generates g.start w ∨ w = [] ∧ g.acceptsEmpty) ∧
      (normal.isMember w = .ok false ↔ ¬ (g.Generates g.start w ∨ w = [] ∧ g.acceptsEmpty)) := by
  obtain ⟨hform, hstart, hflag, hyields⟩ := toChomskyForm_spec h
  refine ⟨hform, ?_⟩
  intro w
  have hwords : w ≠ [] ∧ normal.Yields [normal.start] w ∨ w = [] ∧ normal.acceptsEmpty ↔
      g.Generates g.start w ∨ w = [] ∧ g.acceptsEmpty := by
    rw [hstart, hyields, hflag, Generates, ← yields_iff]
    by_cases hempty : w = []
    · subst hempty
      simp [or_comm]
    · simp [hempty]
  have hmember : ∀ b, normal.isMember w = .ok b ↔
      (b ↔ g.Generates g.start w ∨ w = [] ∧ g.acceptsEmpty) := by
    intro b
    rw [isMember_eq_ok_iff (isChomskyForm_iff.mp hform), hwords]
  simp [hmember]

/-! ## Nested words -/

/-- The grammar of `s -> AsB | t | λ`, `t -> s | A` and `u -> Au`. The variables `s` and `t` vanish
and rename each other, and `u` has no word. -/
def nested : Grammar where
  terminals := .ofList ['A', 'B']
  vars := .ofList ['s', 't', 'u']
  productions := .ofList [⟨'s', ['A', 's', 'B']⟩, ⟨'s', ['t']⟩, ⟨'s', []⟩, ⟨'t', ['s']⟩,
    ⟨'t', ['A']⟩, ⟨'u', ['A', 'u']⟩]
  start := 's'
  kind := .contextFree
  acceptsEmpty := false
  start_mem := by decide
  disjoint := by simp [SortedSet.mem_ofList]
  lhs_mem := by decide
  rhs_mem := by simp [SortedSet.mem_ofList]
  admitted := by decide

/-- The grammar of `s -> AsB | AB | A`, `t -> AsB | AB | A` and `u -> Au`. -/
def renamed : Grammar :=
  { nested with
    productions := .ofList [⟨'s', ['A', 's', 'B']⟩, ⟨'s', ['A', 'B']⟩, ⟨'s', ['A']⟩,
      ⟨'t', ['A', 's', 'B']⟩, ⟨'t', ['A', 'B']⟩, ⟨'t', ['A']⟩, ⟨'u', ['A', 'u']⟩]
    lhs_mem := by decide
    rhs_mem := by simp [nested, SortedSet.mem_ofList]
    admitted := by decide }

/-- The grammar of `s -> AsB | AB | A`. -/
def bracketed : Grammar :=
  { nested with
    vars := {'s'}
    productions := .ofList [⟨'s', ['A', 's', 'B']⟩, ⟨'s', ['A', 'B']⟩, ⟨'s', ['A']⟩]
    start_mem := by decide
    disjoint := by simp [nested, SortedSet.mem_ofList]
    lhs_mem := by decide
    rhs_mem := by simp [nested, SortedSet.mem_ofList]
    admitted := by decide }

theorem unitClosure_nested : nested.removeLambda.unitClosure 's' = .ofList ['s', 't'] ∧
    nested.removeLambda.unitClosure 't' = .ofList ['s', 't'] ∧
      nested.removeLambda.unitClosure 'u' = {'u'} := by
  have hs : nested.removeLambda.unitTargets 's' = {'t'} := by decide +kernel
  have ht : nested.removeLambda.unitTargets 't' = {'s'} := by decide +kernel
  have hu : nested.removeLambda.unitTargets 'u' = ∅ := by decide +kernel
  have hself : ∀ c, c ∈ nested.removeLambda.unitClosure c := fun _ => mem_unitClosure_iff.mpr .refl
  have hnext : ∀ c, ∀ d ∈ nested.removeLambda.unitTargets c,
      d ∈ nested.removeLambda.unitClosure c := fun _ _ hd =>
    mem_unitClosure_iff.mpr (.tail .refl hd)
  refine ⟨?_, ?_, ?_⟩
  · refine SortedSet.closure_eq (by simp) (by simp [hs, ht]) ?_
    have hother := hnext 's' 't' (by simp [hs])
    simpa using ⟨hself 's', hother⟩
  · refine SortedSet.closure_eq (by simp) (by simp [hs, ht]) ?_
    have hother := hnext 't' 's' (by simp [ht])
    simpa using ⟨hother, hself 't'⟩
  · refine SortedSet.closure_eq (fun _ hc => hc) (by simp [hu]) ?_
    intro c hc
    rw [SortedSet.mem_singleton.mp hc]
    exact hself 'u'

theorem removeUnit_nested : nested.removeLambda.removeUnit = renamed := by
  obtain ⟨hs, ht, hu⟩ := unitClosure_nested
  have hvars : nested.removeLambda.vars.toList = ['s', 't', 'u'] := by decide
  have hproductions : nested.removeLambda.unitFreeProductions = renamed.productions := by
    rw [unitFreeProductions, hvars]
    simp only [List.flatMap_cons, List.flatMap_nil, hs, ht, hu]
    decide +kernel
  ext1 <;> first | exact hproductions | rfl

theorem removeUseless_renamed : renamed.removeUseless = bracketed := by
  have hproductive : renamed.productive = .ofList [⟨'s', ['A', 's', 'B']⟩, ⟨'s', ['A', 'B']⟩,
      ⟨'s', ['A']⟩, ⟨'t', ['A', 's', 'B']⟩, ⟨'t', ['A', 'B']⟩, ⟨'t', ['A']⟩] := by decide +kernel
  have hreached : renamed.reached renamed.productive = {'s'} := by
    have hcalled : renamed.calledVariables renamed.productive 's' = {'s'} := by decide +kernel
    refine SortedSet.closure_eq (fun _ hc => hc) ?_ ?_
    · simp [hcalled]
    · intro c hc
      rw [SortedSet.mem_singleton.mp hc]
      exact start_mem_reached
  have hproductions : renamed.removeUseless.productions = bracketed.productions := by
    change renamed.productive.filter (fun p => p.lhs ∈ renamed.reached renamed.productive) = _
    rw [hreached, hproductive]
    decide +kernel
  ext1 <;> first | exact hproductions | exact hreached | rfl

theorem reduced_nested : nested.reduced = bracketed := by
  rw [reduced, removeUnit_nested, removeUseless_renamed]

/-- The normal form needs a name for each terminal and one for what follows the first `A`. -/
theorem size_helpers_bracketed : bracketed.helpers.size = 3 := by decide +kernel

theorem three_le_unusedNames_bracketed : 3 ≤ bracketed.unusedNames.length := by
  have hnames : ['C', 'D', 'E'] ⊆ bracketed.unusedNames := by
    simp only [List.cons_subset, mem_unusedNames]
    decide
  exact (List.subperm_of_subset (by decide) hnames).length_le

theorem exists_toChomskyForm_nested : ∃ normal, nested.toChomskyForm = .ok normal := by
  rw [exists_toChomskyForm_iff, reduced_nested, size_helpers_bracketed]
  exact three_le_unusedNames_bracketed

theorem yields_nested_nil : nested.Yields ['s'] [] :=
  .of_production (by decide : ⟨'s', []⟩ ∈ nested.productions) .nil

/-- Productions never put in more of `B` than of `A`. -/
theorem count_le_of_yields_nested {u : List Char} (h : nested.Yields u w) :
    w.count 'B' + u.count 'A' ≤ w.count 'A' + u.count 'B' := by
  induction h with
  | nil => exact Nat.le_refl 0
  | terminal _ _ ih =>
      simp only [List.count_cons]
      omega
  | @production c rhs rest v w hp _ _ ihrhs ihrest =>
      have hsides : ∀ p ∈ nested.productions,
          p.lhs ≠ 'A' ∧ p.lhs ≠ 'B' ∧ p.rhs.count 'B' ≤ p.rhs.count 'A' := by decide
      obtain ⟨hA, hB, hcount⟩ : c ≠ 'A' ∧ c ≠ 'B' ∧ rhs.count 'B' ≤ rhs.count 'A' :=
        hsides _ hp
      rw [List.count_append, List.count_append, List.count_cons_of_ne hA, List.count_cons_of_ne hB]
      omega

theorem isMember_toChomskyForm_nested : ∃ normal, nested.toChomskyForm = .ok normal ∧
    normal.isMember ['A', 'A', 'A', 'B', 'B'] = .ok true ∧ normal.isMember [] = .ok true ∧
      normal.isMember ['A', 'B', 'B'] = .ok false ∧ normal.isMember ['s'] = .ok false := by
  obtain ⟨normal, h⟩ := exists_toChomskyForm_nested
  have hmember := (isMember_toChomskyForm h).2
  have hinner : nested.Yields ['s'] ['A'] :=
    .of_production (by decide : ⟨'s', ['t']⟩ ∈ nested.productions)
      (.of_production (by decide : ⟨'t', ['A']⟩ ∈ nested.productions) (.self (by decide)))
  have houter : ∀ w, nested.Yields ['s'] w → nested.Yields ['s'] ('A' :: (w ++ ['B'])) := by
    intro w hw
    have hB : nested.Yields ['B'] ['B'] := .self (by decide)
    exact .of_production (by decide : ⟨'s', ['A', 's', 'B']⟩ ∈ nested.productions)
      (.terminal (by decide) (hw.append hB))
  have hmore : ¬ nested.Yields ['s'] ['A', 'B', 'B'] := by
    intro hword
    exact absurd (count_le_of_yields_nested hword) (by decide)
  have hvariable : ¬ nested.IsTerminal ['s'] := by decide
  refine ⟨normal, h, ?_, ?_, ?_, ?_⟩
  · exact (hmember _).1.mpr (.inl (yields_iff.mp (houter _ (houter _ hinner))))
  · exact (hmember _).1.mpr (.inl (yields_iff.mp yields_nested_nil))
  · apply (hmember _).2.mpr
    rintro (hword | ⟨hnil, _⟩)
    · exact hmore (yields_iff.mpr hword)
    · cases hnil
  · apply (hmember _).2.mpr
    rintro (⟨hterminal, _⟩ | ⟨hnil, _⟩)
    · exact hvariable hterminal
    · cases hnil

end LanguageTheory.Grammar
