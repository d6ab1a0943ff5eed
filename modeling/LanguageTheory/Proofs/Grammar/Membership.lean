import LanguageTheory.Grammar.Membership
import LanguageTheory.Proofs.Grammar.Yields

/-!
# Spans and their variables

In normal form a variable yields a word of one symbol by one production, and a longer word by a
production of two variables that yield its two parts. The chart follows the same cases, so each of
its cells holds the variables that yield its span (`mem_cell_chart_iff`).
-/

namespace LanguageTheory.Grammar

variable {g : Grammar} {p : Production} {u v w word : List Char} {c d : Char}
  {length bound start : Nat}

/-! ## Normal form -/

theorem isNormal_iff : g.isNormal p ↔
    (∃ d, d ∉ g.vars ∧ p.rhs = [d]) ∨ ∃ a ∈ g.vars, ∃ b ∈ g.vars, p.rhs = [a, b] := by
  unfold isNormal
  split
  next d hrhs => simp [hrhs]
  next a b hrhs => simp [hrhs]
  next hone htwo =>
    constructor
    · intro h
      cases h
    · intro h
      rcases h with ⟨d, _, hrhs⟩ | ⟨a, _, b, _, hrhs⟩
      · exact absurd hrhs (hone d)
      · exact absurd hrhs (htwo a b)

theorem ne_nil_of_isNormal (hnormal : g.isNormal p) : p.rhs ≠ [] := by
  rcases isNormal_iff.mp hnormal with ⟨d, _, hrhs⟩ | ⟨a, _, b, _, hrhs⟩
  · rw [hrhs]
    exact List.cons_ne_nil d []
  · rw [hrhs]
    exact List.cons_ne_nil a [b]

theorem firstViolation_eq_none_iff :
    g.firstViolation = none ↔ ∀ p ∈ g.productions, g.isNormal p := by
  simp [firstViolation, List.find?_eq_none, SortedSet.mem_toList]

/-- The first violation is the least production that is not in the form. -/
theorem firstViolation_eq_some_iff : g.firstViolation = some p ↔
    p ∈ g.productions ∧ ¬ g.isNormal p ∧ ∀ q ∈ g.productions, Below q p → g.isNormal q := by
  rw [firstViolation, SortedSet.find?_toList_eq_some_iff]
  simp

theorem isChomskyForm_iff : g.isChomskyForm ↔ ∀ p ∈ g.productions, g.isNormal p := by
  rw [isChomskyForm, Option.isNone_iff_eq_none, firstViolation_eq_none_iff]

/-- Without empty productions no form is longer than its words. -/
theorem Yields.length_le (hform : ∀ p ∈ g.productions, g.isNormal p) (h : g.Yields u w) :
    u.length ≤ w.length := by
  induction h with
  | nil => exact Nat.le_refl 0
  | terminal _ _ ih => exact Nat.succ_le_succ ih
  | @production c rhs rest v w hp _ _ ihrhs ihrest =>
      have hpos : 0 < rhs.length := by
        rcases isNormal_iff.mp (hform _ hp) with ⟨d, _, rfl⟩ | ⟨a, _, b, _, rfl⟩
        · exact Nat.one_pos
        · exact Nat.two_pos
      rw [List.length_append, List.length_cons]
      omega

/-- A variable that yields a word. -/
def Heads (g : Grammar) (w : List Char) (c : Char) : Prop := c ∈ g.vars ∧ g.Yields [c] w

theorem Yields.exists_production (hc : c ∈ g.vars) (h : g.Yields [c] w) :
    ∃ rhs, ⟨c, rhs⟩ ∈ g.productions ∧ g.Yields rhs w := by
  cases h with
  | terminal hterminal _ => exact absurd hc (g.disjoint c hterminal)
  | production hp hrhs hrest =>
      cases hrest
      rw [List.append_nil]
      exact ⟨_, hp, hrhs⟩

theorem Yields.eq_of_not_mem_vars (hc : c ∉ g.vars) (h : g.Yields [c] w) : w = [c] := by
  cases h with
  | terminal _ hrest =>
      cases hrest
      rfl
  | production hp _ _ => exact absurd (g.lhs_mem _ hp) hc

theorem heads_singleton_iff (hform : ∀ p ∈ g.productions, g.isNormal p) :
    g.Heads [d] c ↔ ⟨c, [d]⟩ ∈ g.productions := by
  constructor
  · intro h
    rcases h with ⟨hc, h⟩
    obtain ⟨rhs, hp, hrhs⟩ := h.exists_production hc
    rcases isNormal_iff.mp (hform _ hp) with ⟨e, he, rfl⟩ | ⟨a, _, b, _, rfl⟩
    · obtain rfl := List.singleton_inj.mp (hrhs.eq_of_not_mem_vars he)
      exact hp
    · have hlength := hrhs.length_le hform
      simp at hlength
  · intro hp
    refine ⟨g.lhs_mem _ hp, .of_production hp (.self ?_)⟩
    intro e he
    obtain rfl := List.mem_singleton.mp he
    rcases isNormal_iff.mp (hform _ hp) with ⟨f, hf, hrhs⟩ | ⟨a, _, b, _, hrhs⟩
    · obtain rfl := List.singleton_inj.mp hrhs
      exact (g.rhs_mem _ hp e he).resolve_left hf
    · cases hrhs

/-- A longer word is cut between the words of two variables. -/
theorem heads_iff_exists_cut (hform : ∀ p ∈ g.productions, g.isNormal p) (hw : 1 < w.length) :
    g.Heads w c ↔ ∃ i, 0 < i ∧ i < w.length ∧ ∃ a, g.Heads (w.take i) a ∧
      ∃ b, g.Heads (w.drop i) b ∧ ⟨c, [a, b]⟩ ∈ g.productions := by
  constructor
  · intro h
    rcases h with ⟨hc, h⟩
    obtain ⟨rhs, hp, hrhs⟩ := h.exists_production hc
    rcases isNormal_iff.mp (hform _ hp) with ⟨e, he, rfl⟩ | ⟨a, ha, b, hb, rfl⟩
    · rw [hrhs.eq_of_not_mem_vars he] at hw
      exact absurd hw (Nat.lt_irrefl 1)
    · obtain ⟨first, second, rfl, hfirst, hsecond⟩ := Yields.split (u := [a]) hrhs
      have hone := hfirst.length_le hform
      have htwo := hsecond.length_le hform
      simp only [List.length_singleton] at hone htwo
      refine ⟨first.length, hone, ?_, a, ⟨ha, ?_⟩, b, ⟨hb, ?_⟩, hp⟩
      · rw [List.length_append]
        omega
      · rwa [List.take_left]
      · rwa [List.drop_left]
  · intro h
    rcases h with ⟨i, _, _, a, ⟨_, ha⟩, b, ⟨_, hb⟩, hp⟩
    have hword := ha.append hb
    rw [List.take_append_drop] at hword
    exact ⟨g.lhs_mem _ hp, .of_production hp hword⟩

/-! ## Heads of charted spans -/

theorem mem_symbolHeads : c ∈ g.symbolHeads d ↔ ⟨c, [d]⟩ ∈ g.productions := by
  simp only [symbolHeads, SortedSet.mem_ofList, List.mem_map, List.mem_filter,
    SortedSet.mem_toList, decide_eq_true_eq]
  constructor
  · intro h
    rcases h with ⟨⟨lhs, rhs⟩, ⟨hp, rfl⟩, rfl⟩
    exact hp
  · intro hp
    exact ⟨_, ⟨hp, rfl⟩, rfl⟩

theorem mem_pairHeads {left right : SortedSet Char} : c ∈ g.pairHeads left right ↔
    ∃ a ∈ left, ∃ b ∈ right, ⟨c, [a, b]⟩ ∈ g.productions := by
  unfold pairHeads
  split
  next hempty =>
    rw [Bool.or_eq_true, SortedSet.isEmpty_iff, SortedSet.isEmpty_iff] at hempty
    refine iff_of_false (SortedSet.not_mem_empty c) ?_
    intro h
    rcases h with ⟨a, ha, b, hb, _⟩
    rcases hempty with hleft | hright
    · exact hleft a ha
    · exact hright b hb
  next =>
    simp only [SortedSet.mem_ofList, List.mem_map, List.mem_filter, SortedSet.mem_toList]
    constructor
    · intro h
      rcases h with ⟨⟨lhs, rhs⟩, ⟨hp, hsides⟩, rfl⟩
      split at hsides
      next a b hrhs =>
        obtain rfl : rhs = [a, b] := hrhs
        simp only [Bool.and_eq_true, decide_eq_true_eq] at hsides
        exact ⟨a, hsides.1, b, hsides.2, hp⟩
      next => cases hsides
    · intro h
      rcases h with ⟨a, ha, b, hb, hp⟩
      exact ⟨_, ⟨hp, by simp [ha, hb]⟩, rfl⟩

theorem mem_spanHeads {chart : Chart} : c ∈ g.spanHeads chart length start ↔
    ∃ i, 0 < i ∧ i < length ∧ ∃ a ∈ chart.cell i start, ∃ b ∈ chart.cell (length - i) (start + i),
      ⟨c, [a, b]⟩ ∈ g.productions := by
  simp only [spanHeads, SortedSet.mem_ofList, List.mem_flatMap, List.mem_range,
    SortedSet.mem_toList, mem_pairHeads]
  constructor
  · intro h
    rcases h with ⟨i, hi, h⟩
    exact ⟨i + 1, Nat.succ_pos i, by omega, h⟩
  · intro h
    rcases h with ⟨i, hpos, hi, h⟩
    refine ⟨i - 1, by omega, ?_⟩
    rwa [Nat.sub_add_cancel hpos]

/-! ## Charts -/

theorem size_chart : (g.chart word bound).size = bound := by
  fun_induction g.chart word bound with
  | case1 => rfl
  | case2 => rfl
  | case3 length _ shorter ih => rw [Array.size_push, ih]

theorem cell_push_of_le {chart : Chart} {row : Array (SortedSet Char)} (hlength : 0 < length)
    (hbound : length ≤ chart.size) :
    Chart.cell (chart.push row) length start = chart.cell length start := by
  have hrow : length - 1 < chart.size := by omega
  simp only [Chart.cell, Array.getD_eq_getD_getElem?]
  rw [Array.getElem?_push_lt hrow, Array.getElem?_eq_getElem hrow]

theorem cell_push_self (chart : Chart) (row : Array (SortedSet Char)) (start : Nat) :
    Chart.cell (chart.push row) (chart.size + 1) start = row.getD start ∅ := by
  simp [Chart.cell]

theorem chart_succ (hbound : 0 < bound) : g.chart word (bound + 1) =
    (g.chart word bound).push ((Array.range (word.length - bound)).map
      (g.spanHeads (g.chart word bound) (bound + 1))) := by
  cases bound with
  | zero => exact absurd hbound (Nat.lt_irrefl 0)
  | succ bound => rfl

/-- The longest spans of a chart are found from their charted parts. -/
theorem cell_chart_succ (hbound : 0 < bound) (hword : start + (bound + 1) ≤ word.length) :
    (g.chart word (bound + 1)).cell (bound + 1) start =
      g.spanHeads (g.chart word bound) (bound + 1) start := by
  have hlast := cell_push_self (g.chart word bound)
    ((Array.range (word.length - bound)).map (g.spanHeads (g.chart word bound) (bound + 1))) start
  have hstart : start < word.length - bound := by omega
  rw [size_chart] at hlast
  rw [chart_succ hbound, hlast]
  simp [hstart]

/-- The cells of a chart hold the variables of their spans. -/
theorem mem_cell_chart_iff (hform : ∀ p ∈ g.productions, g.isNormal p) (hlength : 0 < length)
    (hbound : length ≤ bound) (hword : start + length ≤ word.length) :
    c ∈ (g.chart word bound).cell length start ↔ g.Heads ((word.drop start).take length) c := by
  induction bound generalizing length start c with
  | zero => omega
  | succ bound ih =>
      rcases Nat.eq_zero_or_pos bound with rfl | hpos
      · obtain rfl : length = 1 := by omega
        have hstart : start < word.length := by omega
        have hspan : (word.drop start).take 1 = [word[start]] := by
          rw [List.drop_eq_getElem_cons hstart, List.take_succ_cons, List.take_zero]
        rw [hspan, heads_singleton_iff hform, ← mem_symbolHeads]
        simp [chart, Chart.cell, hstart]
      rcases Nat.lt_or_eq_of_le hbound with hless | rfl
      · -- a shorter span was charted before
        have hold : length ≤ (g.chart word bound).size := by
          rw [size_chart]
          omega
        rw [chart_succ hpos, cell_push_of_le hlength hold]
        exact ih hlength (Nat.le_of_lt_succ hless) hword
      · -- a span of the new length is cut into two that were charted before
        have hspan : ((word.drop start).take (bound + 1)).length = bound + 1 := by
          rw [List.length_take, List.length_drop]
          omega
        rw [cell_chart_succ hpos hword, mem_spanHeads, heads_iff_exists_cut hform (by omega), hspan]
        apply exists_congr
        intro i
        apply and_congr_right
        intro hcut
        apply and_congr_right
        intro hi
        have hleft : ((word.drop start).take (bound + 1)).take i = (word.drop start).take i := by
          rw [List.take_take, Nat.min_eq_left (Nat.le_of_lt hi)]
        have hright : ((word.drop start).take (bound + 1)).drop i =
            (word.drop (start + i)).take (bound + 1 - i) := by
          rw [List.drop_take, List.drop_drop]
        have ihleft : ∀ a, a ∈ (g.chart word bound).cell i start ↔
            g.Heads ((word.drop start).take i) a := by
          intro a
          exact ih hcut (by omega) (by omega)
        have ihright : ∀ b, b ∈ (g.chart word bound).cell (bound + 1 - i) (start + i) ↔
            g.Heads ((word.drop (start + i)).take (bound + 1 - i)) b := by
          intro b
          exact ih (by omega) (by omega) (by omega)
        simp only [hleft, hright, ihleft, ihright]

/-! ## Membership -/

/-- In normal form a word is a member when the start variable yields it; the empty word is as the
grammar says. -/
theorem isMember_eq_ok_iff (hform : ∀ p ∈ g.productions, g.isNormal p) {b : Bool} :
    g.isMember w = .ok b ↔
      (b ↔ w ≠ [] ∧ g.Yields [g.start] w ∨ w = [] ∧ g.acceptsEmpty) := by
  unfold isMember
  rw [firstViolation_eq_none_iff.mpr hform]
  cases w with
  | nil =>
      cases b <;> simp
  | cons d w =>
      have hcell : g.start ∈ (g.chart (d :: w) (d :: w).length).cell (d :: w).length 0 ↔
          g.Yields [g.start] (d :: w) := by
        have hpos : 0 < (d :: w).length := List.length_pos_iff.mpr (List.cons_ne_nil d w)
        rw [mem_cell_chart_iff hform hpos (Nat.le_refl _) (Nat.le_of_eq (Nat.zero_add _)),
          List.drop_zero, List.take_length, Heads, and_iff_right g.start_mem]
      cases b <;> simp [hcell, -List.length_cons]

theorem isMember_eq_error_iff : g.isMember w = .error ⟨p⟩ ↔ g.firstViolation = some p := by
  unfold isMember
  cases g.firstViolation <;> simp

theorem isMember_ne_ok (hform : ¬ ∀ p ∈ g.productions, g.isNormal p) (b : Bool) :
    g.isMember w ≠ .ok b := by
  rw [← firstViolation_eq_none_iff] at hform
  obtain ⟨p, hp⟩ := Option.ne_none_iff_exists'.mp hform
  rw [isMember_eq_error_iff.mpr hp]
  exact fun h => by cases h

/-- A production with one terminal on its right, or with two variables. -/
def InForm (g : Grammar) (p : Production) : Prop :=
  (∃ d, d ∉ g.vars ∧ p.rhs = [d]) ∨ ∃ a ∈ g.vars, ∃ b ∈ g.vars, p.rhs = [a, b]

/-- Membership is exact for every grammar. The first production that is not in the form, by
left-hand sides and then by right-hand sides, is reported. If there is none, the members are the
terminal words of the start variable, and the empty word as the grammar says. -/
theorem isMember_answers (g : Grammar) (w : List Char) :
    (∀ p, g.isMember w = .error ⟨p⟩ ↔ p ∈ g.productions ∧ ¬ g.InForm p ∧
      ∀ q ∈ g.productions, q.lhs < p.lhs ∨ q.lhs = p.lhs ∧ q.rhs < p.rhs → g.InForm q) ∧
    (∀ b, g.isMember w = .ok b ↔ (∀ p ∈ g.productions, g.InForm p) ∧
      (b ↔ w ≠ [] ∧ g.Generates g.start w ∨ w = [] ∧ g.acceptsEmpty)) ∧
    ((∀ p ∈ g.productions, g.InForm p) → (∃ c ∈ w, c ∉ g.terminals) →
      g.isMember w = .ok false) := by
  have hnormal : ∀ p, g.isNormal p ↔ g.InForm p := fun p => isNormal_iff
  have hok : ∀ b, g.isMember w = .ok b ↔ (∀ p ∈ g.productions, g.InForm p) ∧
      (b ↔ w ≠ [] ∧ g.Generates g.start w ∨ w = [] ∧ g.acceptsEmpty) := by
    intro b
    by_cases hform : ∀ p ∈ g.productions, g.isNormal p
    · rw [isMember_eq_ok_iff hform, Generates, ← yields_iff]
      simp only [hnormal] at hform
      exact (and_iff_right hform).symm
    · refine iff_of_false (isMember_ne_ok hform b) ?_
      simp only [hnormal] at hform
      exact fun h => hform h.1
  refine ⟨?_, hok, ?_⟩
  · intro p
    rw [isMember_eq_error_iff, firstViolation_eq_some_iff]
    simp only [hnormal, Production.below_iff]
  · rintro hform ⟨c, hc, hforeign⟩
    refine (hok false).mpr ⟨hform, iff_of_false Bool.false_ne_true ?_⟩
    rintro (⟨_, hgenerates⟩ | ⟨rfl, _⟩)
    · exact hforeign (hgenerates.1 c hc)
    · exact List.not_mem_nil hc

/-- The grammar of `S -> SS | AB`, `A -> a` and `B -> b`, which cuts longer words in many ways. -/
def pairs : Grammar where
  terminals := .ofList ['a', 'b']
  vars := .ofList ['A', 'B', 'S']
  productions := .ofList [⟨'S', ['S', 'S']⟩, ⟨'S', ['A', 'B']⟩, ⟨'A', ['a']⟩, ⟨'B', ['b']⟩]
  start := 'S'
  kind := .contextFree
  acceptsEmpty := true
  start_mem := by decide
  disjoint := by simp [SortedSet.mem_ofList]
  lhs_mem := by decide
  rhs_mem := by simp [SortedSet.mem_ofList]
  admitted := by decide

theorem isMember_answers_pairs : (∀ p ∈ pairs.productions, pairs.InForm p) ∧
    pairs.isMember ['a', 'b', 'a', 'b'] = .ok true ∧ pairs.isMember [] = .ok true ∧
      pairs.isMember ['A', 'b'] = .ok false ∧ pairs.isMember ['a', 'z'] = .ok false := by
  have hform : ∀ p ∈ pairs.productions, pairs.InForm p :=
    fun p hp => isNormal_iff.mp ((by decide : ∀ p ∈ pairs.productions, pairs.isNormal p) p hp)
  have hpair : pairs.Yields ['S'] ['a', 'b'] :=
    .of_production (by decide : ⟨'S', ['A', 'B']⟩ ∈ pairs.productions)
      (.production (by decide : ⟨'A', ['a']⟩ ∈ pairs.productions) (.self (by decide))
        (.of_production (by decide : ⟨'B', ['b']⟩ ∈ pairs.productions) (.self (by decide))))
  have hpairs : pairs.Yields ['S'] ['a', 'b', 'a', 'b'] :=
    .of_production (by decide : ⟨'S', ['S', 'S']⟩ ∈ pairs.productions) (hpair.append hpair)
  refine ⟨hform, ?_, ?_, ?_, ?_⟩
  · apply ((isMember_answers pairs ['a', 'b', 'a', 'b']).2.1 true).mpr
    exact ⟨hform, iff_of_true rfl (.inl ⟨List.cons_ne_nil _ _, yields_iff.mp hpairs⟩)⟩
  · apply ((isMember_answers pairs []).2.1 true).mpr
    exact ⟨hform, iff_of_true rfl (.inr ⟨rfl, rfl⟩)⟩
  · exact (isMember_answers pairs ['A', 'b']).2.2 hform ⟨'A', List.mem_cons_self, by decide⟩
  · apply (isMember_answers pairs ['a', 'z']).2.2 hform
    exact ⟨'z', List.mem_cons_of_mem _ (List.mem_singleton_self _), by decide⟩

end LanguageTheory.Grammar
