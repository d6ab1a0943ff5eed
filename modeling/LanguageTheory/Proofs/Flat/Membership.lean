import LanguageTheory.Proofs.Flat.Table
import LanguageTheory.Proofs.Grammar.Membership

/-!
# Membership in an array

The spans of a word have their variables in one square array, with a row for every start and a
column for every end. The spans of one symbol are filled in first, and then longer ones, each from
parts that have been filled in before. So no index is out of range, the cells are those of the chart
(`fillSpans?_eq_some`), and the answer is that of the library (`shows_isMember`).
-/

namespace LanguageTheory

theorem FlatTable.setAt?_cells {β : Type} {t : FlatTable β} {row column : Nat} {value : β}
    (hcolumn : column < t.width) :
    setAt? t.cells (row * t.width + column) value = (t.set? row column value).map cells := by
  rw [set?, if_pos hcolumn, setAt?]
  split <;> rfl

namespace Grammar

/-! ## The array -/

/-- The productions with one symbol on the right, and those with two. -/
structure SpanRules where
  symbols : List (Char × Char)
  pairs : List (Char × Char × Char)

namespace SpanRules

/-- Adds a production, unless its right-hand side has another length. -/
def add (rules : SpanRules) (p : Production) : SpanRules :=
  match p.rhs with
  | [a] => { rules with symbols := rules.symbols ++ [(p.lhs, a)] }
  | [a, b] => { rules with pairs := rules.pairs ++ [(p.lhs, a, b)] }
  | _ => rules

/-- The variables with a rule of the one symbol. -/
def symbolHeads (rules : SpanRules) (a : Char) : SortedSet Char :=
  .ofList ((rules.symbols.filter fun rule => rule.2 = a).map Prod.fst)

/-- The variables with a rule of two variables, one from each set. -/
def pairHeads (rules : SpanRules) (left right : SortedSet Char) : SortedSet Char :=
  .ofList ((rules.pairs.filter fun rule => rule.2.1 ∈ left && rule.2.2 ∈ right).map Prod.fst)

/-- The variables of a span, from those of its parts. -/
def spanHeads? (rules : SpanRules) (n : Nat) (table : Array (SortedSet Char)) (start stop : Nat) :
    Option (SortedSet Char) :=
  (List.range' start (stop - start)).foldlM
    (fun heads cut => do
      let left ← table[start * n + cut]?
      let right ← table[(cut + 1) * n + stop]?
      return if left.isEmpty || right.isEmpty then heads else heads ∪ rules.pairHeads left right)
    ∅

/-- Fills in the spans of one symbol. -/
def fillSymbols? (rules : SpanRules) (word : List Char) (table : Array (SortedSet Char)) :
    Option (Array (SortedSet Char)) :=
  (List.range word.length).foldlM
    (fun table i => do
      let a ← word[i]?
      setAt? table (i * word.length + i) (rules.symbolHeads a))
    table

/-- Fills in the spans of a length. -/
def fillLength? (rules : SpanRules) (n : Nat) (table : Array (SortedSet Char)) (length : Nat) :
    Option (Array (SortedSet Char)) :=
  (List.range (n - length + 1)).foldlM
    (fun table start => do
      let heads ← rules.spanHeads? n table start (start + length - 1)
      setAt? table (start * n + (start + length - 1)) heads)
    table

/-- Fills in all spans of a word, shorter ones first. -/
def fillSpans? (rules : SpanRules) (word : List Char) : Option (Array (SortedSet Char)) := do
  let table ← rules.fillSymbols? word (.replicate (word.length * word.length) ∅)
  (List.range' 2 (word.length - 1)).foldlM (rules.fillLength? word.length) table

end SpanRules

/-- The rules of a grammar in the order of its productions. -/
def spanRules (g : Grammar) : SpanRules := g.productions.toList.foldl .add ⟨[], []⟩

/-- Whether a word is a member; the first production that is not in normal form is reported. -/
def isMember? (g : Grammar) (word : List Char) : Checked NotChomskyForm Bool :=
  match g.firstViolation with
  | some p => throw ⟨p⟩
  | none =>
      if word.isEmpty then return g.acceptsEmpty
      else do
        let table ← g.spanRules.fillSpans? word
        let heads ← (table[word.length - 1]? : Option (SortedSet Char))
        return decide (g.start ∈ heads)

variable {g : Grammar} {word : List Char} {n bound start stop : Nat}

/-! ## Rules -/

namespace SpanRules

variable {rules : SpanRules} {p : Production} {l : List Production} {a b c : Char}

theorem mem_symbols_add :
    (c, a) ∈ (rules.add p).symbols ↔ (c, a) ∈ rules.symbols ∨ p = ⟨c, [a]⟩ := by
  obtain ⟨lhs, rhs⟩ := p
  unfold add
  split <;> simp_all [eq_comm]

theorem mem_pairs_add :
    (c, a, b) ∈ (rules.add p).pairs ↔ (c, a, b) ∈ rules.pairs ∨ p = ⟨c, [a, b]⟩ := by
  obtain ⟨lhs, rhs⟩ := p
  unfold add
  split <;> simp_all [eq_comm]

theorem mem_symbols_foldl_add :
    (c, a) ∈ (l.foldl add rules).symbols ↔ (c, a) ∈ rules.symbols ∨ ⟨c, [a]⟩ ∈ l := by
  induction l generalizing rules with
  | nil => simp
  | cons p l ih => simp [ih, mem_symbols_add, or_assoc, eq_comm]

theorem mem_pairs_foldl_add :
    (c, a, b) ∈ (l.foldl add rules).pairs ↔ (c, a, b) ∈ rules.pairs ∨ ⟨c, [a, b]⟩ ∈ l := by
  induction l generalizing rules with
  | nil => simp
  | cons p l ih => simp [ih, mem_pairs_add, or_assoc, eq_comm]

theorem symbolHeads_spanRules : g.spanRules.symbolHeads a = g.symbolHeads a := by
  apply SortedSet.ext
  intro c
  simp [symbolHeads, spanRules, mem_symbolHeads, mem_symbols_foldl_add, SortedSet.mem_toList]

theorem pairHeads_spanRules {left right : SortedSet Char} :
    g.spanRules.pairHeads left right = g.pairHeads left right := by
  apply SortedSet.ext
  intro c
  simp only [pairHeads, spanRules, mem_pairHeads, SortedSet.mem_ofList, List.mem_map,
    List.mem_filter, Prod.exists, mem_pairs_foldl_add, SortedSet.mem_toList, Bool.and_eq_true,
    decide_eq_true_eq]
  constructor
  · rintro ⟨_, a, b, ⟨hrule, ha, hb⟩, rfl⟩
    exact ⟨a, ha, b, hb, by simpa using hrule⟩
  · rintro ⟨a, ha, b, hb, hp⟩
    exact ⟨c, a, b, ⟨.inr hp, ha, hb⟩, rfl⟩

end SpanRules

/-! ## The course of filling in -/

/-- The square array of the values of a function. -/
def square (n : Nat) (f : Nat → Nat → SortedSet Char) : Array (SortedSet Char) :=
  (FlatTable.ofFn n n f).cells

theorem square_get? {f : Nat → Nat → SortedSet Char} (hstart : start < n) (hstop : stop < n) :
    (square n f)[start * n + stop]? = some (f start stop) := by
  have hindex := Table.index_lt hstart hstop
  have hcell : (start * n + stop) / n = start ∧ (start * n + stop) % n = stop :=
    (FlatTable.div_mod_eq_iff hstop).mpr rfl
  simp [square, FlatTable.ofFn, hindex, hcell]

theorem setAt?_square {f : Nat → Nat → SortedSet Char} {heads : SortedSet Char} (hstart : start < n)
    (hstop : stop < n) : setAt? (square n f) (start * n + stop) heads =
      some (square n fun r c => if r = start ∧ c = stop then heads else f r c) := by
  have hcells : setAt? (square n f) (start * n + stop) heads =
      ((FlatTable.ofFn n n f).set? start stop heads).map FlatTable.cells :=
    FlatTable.setAt?_cells hstop
  rw [hcells, FlatTable.set?_ofFn hstart hstop]
  rfl

/-- The variables of a span by its length and start. -/
def spanCell (g : Grammar) (word : List Char) (length start : Nat) : SortedSet Char :=
  (g.chart word length).cell length start

/-- A longer chart has the same cells. -/
theorem cell_chart_of_le {length : Nat} (hlength : 0 < length) (hbound : length ≤ bound) :
    (g.chart word bound).cell length start = g.spanCell word length start := by
  induction hbound with
  | refl => rfl
  | @step bound hbound ih =>
      have hsize : length ≤ (g.chart word bound).size := by rwa [size_chart]
      rw [chart_succ (Nat.lt_of_lt_of_le hlength hbound), cell_push_of_le hlength hsize, ih]

theorem spanCell_one (hstart : start < word.length) :
    g.spanCell word 1 start = g.symbolHeads word[start] := by
  simp [spanCell, chart, Chart.cell, hstart]

theorem spanCell_succ (hbound : 0 < bound) (hword : start + bound < word.length) :
    g.spanCell word (bound + 1) start =
      .ofList ((List.range bound).flatMap fun i =>
        (g.pairHeads (g.spanCell word (i + 1) start)
          (g.spanCell word (bound - i) (start + i + 1))).toList) := by
  rw [spanCell, cell_chart_succ hbound hword, spanHeads, Nat.add_sub_cancel]
  refine congrArg SortedSet.ofList (List.flatMap_congr ?_)
  intro i hi
  have hlt := List.mem_range.mp hi
  rw [Nat.add_sub_add_right, cell_chart_of_le (Nat.succ_pos i) hlt,
    cell_chart_of_le (Nat.sub_pos_of_lt hlt) (Nat.sub_le bound i), Nat.add_assoc]

/-- The array when the spans of up to `bound` symbols are filled in, and of those with one more the
ones that start before `upTo`. -/
def filledIn (g : Grammar) (word : List Char) (bound upTo : Nat) : Array (SortedSet Char) :=
  square word.length fun start stop =>
    if start ≤ stop ∧ (stop < start + bound ∨ stop = start + bound ∧ start < upTo) then
      g.spanCell word (stop + 1 - start) start
    else ∅

theorem filledIn_zero : g.filledIn word 0 0 = .replicate (word.length * word.length) ∅ := by
  have hnone : ∀ start stop, ¬ (start ≤ stop ∧
      (stop < start + 0 ∨ stop = start + 0 ∧ start < 0)) := by omega
  simp only [filledIn, hnone, if_false, square]
  exact (congrArg FlatTable.cells FlatTable.filled_eq_ofFn).symm

/-- When all spans of a length are filled in, the next longer ones are due. -/
theorem filledIn_length (hbound : bound ≤ word.length) :
    g.filledIn word bound (word.length - bound) = g.filledIn word (bound + 1) 0 := by
  refine congrArg FlatTable.cells (FlatTable.ofFn_congr ?_)
  intro start _ stop hstop
  have hfilled : (start ≤ stop ∧
      (stop < start + bound ∨ stop = start + bound ∧ start < word.length - bound)) ↔
        start ≤ stop ∧ (stop < start + (bound + 1) ∨ stop = start + (bound + 1) ∧ start < 0) := by
    omega
  simp only [hfilled]

theorem filledIn_get? {i : Nat} (hi : i < bound) (hword : start + i < word.length) (upTo : Nat) :
    (g.filledIn word bound upTo)[start * word.length + (start + i)]? =
      some (g.spanCell word (i + 1) start) := by
  have hfilled : start ≤ start + i ∧
      (start + i < start + bound ∨ start + i = start + bound ∧ start < upTo) := by omega
  have hlength : start + i + 1 - start = i + 1 := by omega
  rw [filledIn, square_get? (by omega) hword, if_pos hfilled, hlength]

/-- Filling in one more span. -/
theorem setAt?_filledIn (hword : start + bound < word.length) :
    setAt? (g.filledIn word bound start) (start * word.length + (start + bound))
      (g.spanCell word (bound + 1) start) = some (g.filledIn word bound (start + 1)) := by
  rw [filledIn, setAt?_square (by omega) hword]
  refine congrArg some (congrArg FlatTable.cells (FlatTable.ofFn_congr ?_))
  intro row _ stop _
  by_cases hcell : row = start ∧ stop = start + bound
  · obtain ⟨rfl, rfl⟩ := hcell
    have hlength : row + bound + 1 - row = bound + 1 := by omega
    have hfilled : row ≤ row + bound ∧
        (row + bound < row + bound ∨ row + bound = row + bound ∧ row < row + 1) := by omega
    rw [if_pos ⟨rfl, rfl⟩, if_pos hfilled, hlength]
  · have hfilled : (row ≤ stop ∧ (stop < row + bound ∨ stop = row + bound ∧ row < start)) ↔
        row ≤ stop ∧ (stop < row + bound ∨ stop = row + bound ∧ row < start + 1) := by omega
    simp only [if_neg hcell, hfilled]

/-! ## Loops -/

namespace SpanRules

theorem fillSymbols?_filledIn :
    g.spanRules.fillSymbols? word (g.filledIn word 0 0) = some (g.filledIn word 1 0) := by
  have hloop := foldlM_range (m := Option) (n := word.length) (s := g.filledIn word 0)
    (f := fun table i => do
      let a ← word[i]?
      setAt? table (i * word.length + i) (g.spanRules.symbolHeads a))
    (fun i hi => by
      apply access_eq_some (List.getElem?_eq_getElem hi)
      rw [symbolHeads_spanRules, ← spanCell_one hi]
      exact setAt?_filledIn hi)
  exact hloop.trans (congrArg some (filledIn_length (Nat.zero_le _)))

/-- A part without variables adds nothing, and may be skipped. -/
theorem skip_eq_union (heads left right : SortedSet Char) :
    (if left.isEmpty || right.isEmpty then heads
      else heads ∪ g.spanRules.pairHeads left right) = heads ∪ g.pairHeads left right := by
  rw [pairHeads_spanRules]
  split
  next hempty =>
    rw [Grammar.pairHeads, if_pos hempty]
    apply SortedSet.ext
    simp
  next => rfl

/-- A span is found from its parts, cut at every place in turn. -/
theorem spanHeads?_filledIn (hbound : 0 < bound) (hword : start + bound < word.length) :
    g.spanRules.spanHeads? word.length (g.filledIn word bound start) start (start + bound) =
      some (g.spanCell word (bound + 1) start) := by
  have hloop := foldlM_range (m := Option) (n := bound)
    (s := fun k => SortedSet.ofList ((List.range k).flatMap fun i =>
      (g.pairHeads (g.spanCell word (i + 1) start)
        (g.spanCell word (bound - i) (start + i + 1))).toList))
    (f := fun heads i => do
      let left ← (g.filledIn word bound start)[start * word.length + (start + i)]?
      let right ← (g.filledIn word bound start)[(start + i + 1) * word.length + (start + bound)]?
      return if left.isEmpty || right.isEmpty then heads
        else heads ∪ g.spanRules.pairHeads left right)
    (fun i hi => by
      have hstop : start + i + 1 + (bound - (i + 1)) = start + bound := by omega
      have hlength : bound - (i + 1) + 1 = bound - i := by omega
      have hright : (g.filledIn word bound start)[(start + i + 1) * word.length +
          (start + bound)]? = some (g.spanCell word (bound - i) (start + i + 1)) := by
        rw [← hstop, ← hlength]
        exact filledIn_get? (by omega) (by omega) start
      apply access_eq_some (filledIn_get? hi (by omega) start)
      apply access_eq_some hright
      rw [skip_eq_union]
      refine congrArg some (SortedSet.ext fun c => ?_)
      simp [List.range_succ, SortedSet.mem_toList])
  rw [spanCell_succ hbound hword, spanHeads?, Nat.add_sub_cancel_left, List.range'_eq_map_range,
    List.foldlM_map]
  exact hloop

theorem fillLength?_filledIn (hbound : 0 < bound) (hword : bound < word.length) :
    g.spanRules.fillLength? word.length (g.filledIn word bound 0) (bound + 1) =
      some (g.filledIn word (bound + 1) 0) := by
  have hcount : word.length - (bound + 1) + 1 = word.length - bound := by omega
  have hloop := foldlM_range (m := Option) (n := word.length - bound) (s := g.filledIn word bound)
    (f := fun table start => do
      let heads ← g.spanRules.spanHeads? word.length table start (start + (bound + 1) - 1)
      setAt? table (start * word.length + (start + (bound + 1) - 1)) heads)
    (fun start hstart => by
      have hend : start + bound < word.length := by omega
      exact access_eq_some (spanHeads?_filledIn hbound hend) (setAt?_filledIn hend))
  rw [fillLength?, hcount, ← filledIn_length (Nat.le_of_lt hword)]
  exact hloop

theorem fillSpans?_eq_some (hword : 0 < word.length) :
    g.spanRules.fillSpans? word = some (g.filledIn word word.length 0) := by
  have hloop := foldlM_range (m := Option) (n := word.length - 1)
    (s := fun k => g.filledIn word (k + 1) 0)
    (f := fun table k => g.spanRules.fillLength? word.length table (2 + k))
    (fun k hk => by
      rw [Nat.add_comm 2 k]
      exact fillLength?_filledIn (Nat.succ_pos k) (by omega))
  rw [Nat.sub_add_cancel hword] at hloop
  rw [fillSpans?, ← filledIn_zero, fillSymbols?_filledIn, Option.bind_eq_bind, Option.bind_some,
    List.range'_eq_map_range, List.foldlM_map]
  exact hloop

end SpanRules

/-! ## Membership -/

/-- The answer comes from the cell of the whole word. -/
theorem shows_isMember (g : Grammar) (word : List Char) :
    Shows id (g.isMember? word) (g.isMember word) := by
  unfold isMember? isMember
  cases g.firstViolation with
  | some p => exact Shows.throw _
  | none =>
      by_cases hempty : word.isEmpty
      · simp only [if_pos hempty]
        exact Shows.pure _
      · have hpos : 0 < word.length := List.length_pos_iff.mpr (by simpa using hempty)
        have hcell : (g.filledIn word word.length 0)[word.length - 1]? =
            some ((g.chart word word.length).cell word.length 0) := by
          have hindex : word.length - 1 = 0 * word.length + (0 + (word.length - 1)) := by omega
          have hlength : word.length - 1 + 1 = word.length := Nat.sub_add_cancel hpos
          rw [hindex, filledIn_get? (by omega) (by omega), hlength, spanCell]
        simp only [if_neg hempty]
        apply Shows.access (SpanRules.fillSpans?_eq_some hpos)
        apply Shows.access hcell
        exact Shows.pure _

end Grammar

end LanguageTheory
