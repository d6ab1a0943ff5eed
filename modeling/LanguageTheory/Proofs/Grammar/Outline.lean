import LanguageTheory.Grammar.Outline

/-!
# Outlines of a grammar

A grammar can be written down in many ways: the right-hand sides of a variable may be joined by bars or
kept apart, in any order, more than once, and with `λ` anywhere between their symbols. All of them are
read as the same productions (`Line.productions_eq`). So an outline builds the grammar that it writes
down, and it may leave out the sets of symbols if these can be read off the productions
(`build_exact`).
-/

namespace LanguageTheory.Grammar.Outline

variable {g : Grammar} {o : Outline} {text plain : List Char} {c : Char}

/-! ## Texts of right-hand sides -/

/-- The text has the characters of another one, and any number of `λ` between them. -/
inductive Padded : List Char → List Char → Prop
  | nil : Padded [] []
  | mark {plain text : List Char} : Padded plain text → Padded plain ('λ' :: text)
  | symbol {c : Char} {plain text : List Char} : Padded plain text → Padded (c :: plain) (c :: text)

theorem Padded.filter_eq (h : Padded plain text) (hplain : 'λ' ∉ plain) :
    text.filter (· ≠ 'λ') = plain := by
  induction h with
  | nil => rfl
  | mark _ ih =>
      rw [List.filter_cons_of_neg (by decide)]
      exact ih hplain
  | @symbol c plain text _ ih =>
      rw [List.mem_cons, not_or] at hplain
      have hc : c ≠ 'λ' := Ne.symm hplain.1
      rw [List.filter_cons_of_pos (by simpa using hc), ih hplain.2]

/-- A text has a first part. -/
theorem exists_alternatives_eq_cons (text : List Char) :
    ∃ first others, alternatives text = first :: others := by
  induction text with
  | nil => exact ⟨[], [], rfl⟩
  | cons c rest ih =>
      obtain ⟨first, others, hrest⟩ := ih
      rw [alternatives, hrest]
      split
      next => exact ⟨[], _, rfl⟩
      next => exact ⟨_, _, rfl⟩

theorem alternatives_eq_splitOn (text : List Char) : alternatives text = text.splitOn '|' := by
  induction text with
  | nil => rfl
  | cons c rest ih =>
      obtain ⟨first, others, hrest⟩ := exists_alternatives_eq_cons rest
      rw [alternatives, List.splitOn, List.splitOnP_cons_eq_if_modifyHead, ← List.splitOn, ← ih,
        hrest]
      simp only [beq_iff_eq, List.modifyHead_cons]

theorem alternatives_intercalate {parts : List (List Char)} (hparts : parts ≠ [])
    (hbar : ∀ part ∈ parts, '|' ∉ part) : alternatives (['|'].intercalate parts) = parts := by
  rw [alternatives_eq_splitOn, List.splitOn_intercalate '|' hbar hparts]

/-- Erasing every `λ` from the parts of a text is erasing it from the text. -/
theorem map_filter_alternatives (text : List Char) :
    (alternatives text).map (·.filter (· ≠ 'λ')) = alternatives (text.filter (· ≠ 'λ')) := by
  induction text with
  | nil => rfl
  | cons c rest ih =>
      obtain ⟨first, others, hrest⟩ := exists_alternatives_eq_cons rest
      rw [hrest, List.map_cons] at ih
      -- a `λ` is no bar, so erasing it first does not move the ends of the parts
      by_cases hmark : c = 'λ'
      · subst hmark
        rw [List.filter_cons_of_neg (by decide), ← ih, alternatives, if_neg (by decide), hrest]
        simp
      · rw [List.filter_cons_of_pos (by simpa using hmark), alternatives, alternatives, hrest, ← ih]
        split
        next => simp
        next => simp [hmark]

theorem not_mem_intercalate {parts : List (List Char)} {bar : Char} (hbar : c ≠ bar)
    (hparts : ∀ part ∈ parts, c ∉ part) : c ∉ [bar].intercalate parts := by
  induction parts with
  | nil => exact List.not_mem_nil
  | cons part parts ih =>
      have hfirst := hparts part List.mem_cons_self
      have hrest := ih fun other hother => hparts other (List.mem_cons_of_mem part hother)
      cases parts with
      | nil => rwa [List.intercalate_singleton]
      | cons next parts =>
          rw [List.intercalate_cons_cons, List.mem_append, List.mem_append, List.mem_singleton]
          intro hmem
          rcases hmem with (hmem | hmem) | hmem
          · exact hfirst hmem
          · exact hbar hmem
          · exact hrest hmem

/-- A text is taken apart into the right-hand sides that were joined. -/
theorem map_filter_alternatives_of_padded {parts : List (List Char)} (hparts : parts ≠ [])
    (hbar : ∀ part ∈ parts, '|' ∉ part) (hmark : ∀ part ∈ parts, 'λ' ∉ part)
    (h : Padded (['|'].intercalate parts) text) :
    (alternatives text).map (·.filter (· ≠ 'λ')) = parts := by
  have hne : 'λ' ≠ '|' := by decide
  have hjoined := not_mem_intercalate hne hmark
  rw [map_filter_alternatives, h.filter_eq hjoined, alternatives_intercalate hparts hbar]

/-! ## Lines -/

/-- Some right-hand sides of a variable, joined by bars to a text, with any number of `λ` between the
symbols. -/
structure Line where
  lhs : Char
  alternatives : List (List Char)
  text : List Char
  ne_nil : alternatives ≠ []
  padded : Padded (['|'].intercalate alternatives) text

/-- Adds the productions of some lines, one line after the other. -/
def write (o : Outline) (lines : List Line) : Outline :=
  lines.foldl (fun o line => o.add line.lhs line.text) o

/-- The lines have all productions of the grammar and no others, in whatever order and however often. -/
def Writes (lines : List Line) (g : Grammar) : Prop :=
  ∀ p, p ∈ g.productions ↔ ∃ line ∈ lines, line.lhs = p.lhs ∧ p.rhs ∈ line.alternatives

theorem write_eq (o : Outline) (lines : List Line) : o.write lines =
    { o with productions := o.productions ++ lines.flatMap fun line =>
        (Outline.alternatives line.text).map fun alternative =>
          ⟨line.lhs, alternative.filter (· ≠ 'λ')⟩ } := by
  induction lines generalizing o with
  | nil => simp [write]
  | cons line lines ih =>
      have hfirst : o.write (line :: lines) = (o.add line.lhs line.text).write lines := rfl
      rw [hfirst, ih, add]
      simp

/-! ## Building -/

/-- The outline says all of the grammar but its symbols. -/
structure Describes (o : Outline) (g : Grammar) : Prop where
  mem_productions_iff : ∀ p, p ∈ o.productions ↔ p ∈ g.productions
  start_eq : o.start = g.start
  kind_eq : o.kind = g.kind

/-- A symbol is in use: it is the start or a symbol of some production. -/
def InUse (g : Grammar) (c : Char) : Prop :=
  c = g.start ∨ ∃ p ∈ g.productions, c = p.lhs ∨ c ∈ p.rhs

/-- The symbols can be read off the productions: the variables are the capital letters in use, and the
terminals are the other symbols in use. -/
structure ReadOff (g : Grammar) : Prop where
  mem_vars_iff : ∀ c, c ∈ g.vars ↔ InUse g c ∧ 'A' ≤ c ∧ c ≤ 'Z'
  mem_terminals_iff : ∀ c, c ∈ g.terminals ↔ InUse g c ∧ ¬ ('A' ≤ c ∧ c ≤ 'Z')

theorem describes_write (hsymbols : ∀ c, c ∈ g.vars ∨ c ∈ g.terminals → c ≠ '|' ∧ c ≠ 'λ')
    {lines : List Line} (hlines : Writes lines g) (terminals vars : Option (SortedSet Char)) :
    Describes (write { terminals, vars, start := g.start, kind := g.kind } lines) g := by
  rw [write_eq]
  refine ⟨?_, rfl, rfl⟩
  intro p
  have hline (line : Line) (hline : line ∈ lines) :
      (Outline.alternatives line.text).map (·.filter (· ≠ 'λ')) = line.alternatives := by
    have hrhs (part : List Char) (hpart : part ∈ line.alternatives) (c : Char) (hc : c ∈ part) :
        c ≠ '|' ∧ c ≠ 'λ' :=
      hsymbols c (g.rhs_mem ⟨line.lhs, part⟩ ((hlines _).mpr ⟨line, hline, rfl, hpart⟩) c hc)
    apply map_filter_alternatives_of_padded line.ne_nil _ _ line.padded
    · intro part hpart hbar
      exact (hrhs part hpart '|' hbar).1 rfl
    · intro part hpart hmark
      exact (hrhs part hpart 'λ' hmark).2 rfl
  rw [hlines p]
  simp only [List.nil_append, List.mem_flatMap, List.mem_map]
  apply exists_congr
  intro line
  apply and_congr_right
  intro hmem
  rw [← hline line hmem, List.mem_map]
  constructor
  · intro h
    obtain ⟨alternative, halternative, rfl⟩ := h
    exact ⟨rfl, alternative, halternative, rfl⟩
  · intro h
    obtain ⟨hlhs, alternative, halternative, hrhs⟩ := h
    exact ⟨alternative, halternative, by rw [hlhs, hrhs]⟩

theorem mem_used_iff (h : Describes o g) : c ∈ o.used ↔ InUse g c := by
  rw [used, SortedSet.mem_ofList, List.mem_cons, List.mem_flatMap, h.start_eq, InUse]
  simp only [List.mem_cons, h.mem_productions_iff]

theorem isUpper_iff : c.isUpper ↔ 'A' ≤ c ∧ c ≤ 'Z' := decide_eq_true_iff

theorem build_eq (h : Describes o g) (hflag : g.acceptsEmpty = false)
    (hterminals : o.allTerminals = g.terminals) (hvars : o.allVariables = g.vars) :
    o.build = .ok g := by
  have hproductions : SortedSet.ofList o.productions = g.productions := by
    apply SortedSet.ext
    intro p
    rw [SortedSet.mem_ofList, h.mem_productions_iff]
  rw [build, hterminals, hvars, hproductions, h.start_eq, h.kind_eq]
  exact ofSets_eq_ok_iff.mpr ⟨rfl, rfl, rfl, rfl, rfl, hflag⟩

theorem allVariables_eq (h : Describes o g) (hg : ReadOff g) (hvars : o.vars = none)
    (hterminals : o.terminals = none ∨ o.terminals = some g.terminals) :
    o.allVariables = g.vars := by
  apply SortedSet.ext
  intro c
  have hgiven (hc : c ∈ o.terminals.getD ∅) : c ∈ g.terminals := by
    rcases hterminals with hnone | hsome
    · rw [hnone] at hc
      exact absurd hc (SortedSet.not_mem_empty c)
    · rwa [hsome] at hc
  simp only [allVariables, hvars, SortedSet.mem_filter, Bool.and_eq_true, decide_eq_true_eq,
    mem_used_iff h, isUpper_iff]
  rw [hg.mem_vars_iff]
  constructor
  · intro hc
    exact ⟨hc.1, hc.2.1⟩
  · intro hc
    refine ⟨hc.1, hc.2, ?_⟩
    -- a given terminal is no variable of the grammar
    intro hterminal
    exact g.disjoint c (hgiven hterminal) ((hg.mem_vars_iff c).mpr hc)

theorem allTerminals_eq (h : Describes o g) (hg : ReadOff g) (hterminals : o.terminals = none)
    (hvars : o.allVariables = g.vars) : o.allTerminals = g.terminals := by
  apply SortedSet.ext
  intro c
  simp only [allTerminals, hterminals, hvars, SortedSet.mem_filter, decide_eq_true_eq,
    mem_used_iff h]
  rw [hg.mem_terminals_iff, hg.mem_vars_iff]
  apply and_congr_right
  intro hused
  rw [and_iff_right hused]

/-- However a grammar is written down, the outline with its symbols builds it. If the symbols can be
read off the productions, the terminals, the variables or both may be left out. -/
theorem build_exact {terminals vars : List Char} {productions : List Production} {start : Char}
    {kind : Kind} (hmade : ofLists terminals vars productions start kind = .ok g)
    (hsymbols : ∀ c, c ∈ g.vars ∨ c ∈ g.terminals → c ≠ '|' ∧ c ≠ 'λ')
    {lines : List Line} (hlines : Writes lines g) :
    (write { terminals := some g.terminals, vars := some g.vars, start, kind } lines).build = .ok g ∧
    (ReadOff g → ∀ terminals' vars', (terminals' = none ∨ terminals' = some g.terminals) →
      (vars' = none ∨ vars' = some g.vars) →
        (write { terminals := terminals', vars := vars', start, kind } lines).build = .ok g) := by
  obtain ⟨-, -, -, rfl, rfl, hflag⟩ := ofSets_eq_ok_iff.mp hmade
  have hdescribes := describes_write hsymbols hlines
  refine ⟨?_, ?_⟩
  · apply build_eq (hdescribes (some g.terminals) (some g.vars)) hflag
    · rw [write_eq]
      rfl
    · rw [write_eq]
      rfl
  · intro hg terminals' vars' hterminals hvars
    have h := hdescribes terminals' vars'
    -- adding lines does not change what was given
    generalize houtline : write ⟨terminals', vars', [], g.start, g.kind⟩ lines = o at h
    have hgiven : o.terminals = terminals' ∧ o.vars = vars' := by
      rw [← houtline, write_eq]
      exact ⟨rfl, rfl⟩
    obtain ⟨rfl, rfl⟩ := hgiven
    have hall : o.allVariables = g.vars := by
      rcases hvars with hnone | hsome
      · exact allVariables_eq h hg hnone hterminals
      · rw [allVariables, hsome]
    have hallTerminals : o.allTerminals = g.terminals := by
      rcases hterminals with hnone | hsome
      · exact allTerminals_eq h hg hnone hall
      · rw [allTerminals, hsome]
    exact build_eq h hflag hallTerminals hall

/-- A line with some `λ` in it: one right-hand side is empty, and the other has three symbols. -/
def marked : Line where
  lhs := 'S'
  alternatives := [[], ['a', 'S', 'b']]
  text := ['λ', '|', 'a', 'λ', 'S', 'b']
  ne_nil := List.cons_ne_nil _ _
  padded := .mark (.symbol (.symbol (.mark (.symbol (.symbol .nil)))))

theorem build_exact_marked : ∃ g,
    ofLists ['a', 'b'] ['S'] [⟨'S', ['a', 'S', 'b']⟩, ⟨'S', []⟩] 'S' .contextFree = .ok g ∧
      (write {} [marked, marked]).build = .ok g := by
  obtain ⟨g, hmade⟩ : ∃ g,
      ofLists ['a', 'b'] ['S'] [⟨'S', ['a', 'S', 'b']⟩, ⟨'S', []⟩] 'S' .contextFree = .ok g :=
    ⟨_, rfl⟩
  obtain ⟨hterminals, hvars, hproductions, hstart, -⟩ := ofSets_eq_ok_iff.mp hmade
  have hvar (c : Char) : c ∈ g.vars ↔ c = 'S' := by simp [hvars]
  have hterminal (c : Char) : c ∈ g.terminals ↔ c = 'a' ∨ c = 'b' := by simp [hterminals]
  have hproduction (p : Production) :
      p ∈ g.productions ↔ 'S' = p.lhs ∧ p.rhs ∈ [[], ['a', 'S', 'b']] := by
    obtain ⟨lhs, rhs⟩ := p
    simp only [hproductions, SortedSet.mem_ofList, List.mem_cons, List.not_mem_nil, or_false,
      Production.mk.injEq]
    grind
  have hused (c : Char) : InUse g c ↔ c = 'S' ∨ c = 'a' ∨ c = 'b' := by
    constructor
    · intro h
      rcases h with hc | ⟨p, hp, hc | hc⟩
      · exact .inl (hc.trans hstart)
      · exact .inl (hc.trans ((hproduction p).mp hp).1.symm)
      · have hrhs := ((hproduction p).mp hp).2
        grind
    · intro h
      have hp : (⟨'S', ['a', 'S', 'b']⟩ : Production) ∈ g.productions :=
        (hproduction _).mpr ⟨rfl, List.mem_cons_of_mem _ List.mem_cons_self⟩
      exact .inr ⟨_, hp, .inr (by grind)⟩
  refine ⟨g, hmade, (build_exact hmade ?_ ?_).2 ?_ none none (.inl rfl) (.inl rfl)⟩
  · intro c hc
    rw [hvar, hterminal] at hc
    rcases hc with rfl | rfl | rfl <;> decide
  · intro p
    rw [hproduction]
    simp [marked]
  · refine ⟨?_, ?_⟩
    · intro c
      rw [hvar, hused]
      constructor
      · intro hc
        obtain rfl := hc
        decide
      · intro h
        obtain ⟨rfl | rfl | rfl, hupper⟩ := h
        · rfl
        · exact absurd hupper (by decide)
        · exact absurd hupper (by decide)
    · intro c
      rw [hterminal, hused]
      constructor
      · intro hc
        rcases hc with rfl | rfl <;> decide
      · intro h
        obtain ⟨rfl | hc, hupper⟩ := h
        · exact absurd (by decide) hupper
        · exact hc

end LanguageTheory.Grammar.Outline
