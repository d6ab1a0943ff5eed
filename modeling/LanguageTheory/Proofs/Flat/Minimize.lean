import LanguageTheory.Proofs.DFA.TableFilling
import LanguageTheory.Proofs.Flat.Reachable

/-!
# Minimization without promises

Pairs of states are marked in a table, states take the class number of the first state that they
have no mark with, and the rows of the classes are written once for every member. In a well-formed
automaton no index is out of range, and the results are those of the library (`DFA.minimize?_flat`,
`DFA.isMinimal?_flat`).
-/

namespace LanguageTheory

/-! ## Marks -/

namespace FlatTable

variable {n p q : Nat} {marks after : FlatTable Bool}
  {test? : FlatTable Bool → Nat × Nat → Option Bool}

/-- The pairs with the greater number first, in the order of the rows. -/
def pairsBelow (n : Nat) : List (Nat × Nat) :=
  (List.range n).flatMap fun p => (List.range p).map (p, ·)

/-- Marks a pair in both orders. -/
def mark? (marks : FlatTable Bool) (p q : Nat) : Option (FlatTable Bool) := do
  let marks ← marks.set? p q true
  marks.set? q p true

/-- Marks a pair that meets a test. -/
def visit? (test? : FlatTable Bool → Nat × Nat → Option Bool) (marks : FlatTable Bool)
    (pair : Nat × Nat) : Option (FlatTable Bool) := do
  let found ← test? marks pair
  if found then marks.mark? pair.1 pair.2 else return marks

/-- Visits all pairs in turn. -/
def scan? (n : Nat) (test? : FlatTable Bool → Nat × Nat → Option Bool) (marks : FlatTable Bool) :
    Option (FlatTable Bool) :=
  (pairsBelow n).foldlM (visit? test?) marks

/-- How many cells have no mark. -/
def unmarked (marks : FlatTable Bool) : Nat := marks.cells.count false

theorem progress_set? (hset : marks.set? p q true = some after) :
    Progress unmarked marks after := by
  unfold set? at hset
  split at hset
  next =>
    split at hset
    next hindex =>
      obtain rfl := Option.some.inj hset
      cases hcell : marks.cells[p * marks.width + q] with
      | true =>
          left
          rw [← hcell, Array.set_getElem_self]
      | false =>
          right
          have hpos : 0 < marks.cells.count false :=
            Array.count_pos_iff.mpr (hcell ▸ Array.getElem_mem hindex)
          simp only [unmarked, Array.count_set, hcell, beq_self_eq_true, if_true]
          exact Nat.sub_one_lt_of_lt hpos
    next => cases hset
  next => cases hset

theorem progress_visit? {pair : Nat × Nat} (hvisit : visit? test? marks pair = some after) :
    Progress unmarked marks after := by
  obtain ⟨found, _, hmark⟩ := Option.bind_eq_some_iff.mp hvisit
  cases found with
  | true =>
      obtain ⟨half, hfirst, hsecond⟩ := Option.bind_eq_some_iff.mp hmark
      exact (progress_set? hfirst).trans (progress_set? hsecond)
  | false => exact .inl (Option.some.inj hmark).symm

/-- A scan that changes something marks something. -/
theorem unmarked_lt_of_scan? (hscan : scan? n test? marks = some after) (hchange : after ≠ marks) :
    after.unmarked < marks.unmarked := by
  refine Or.resolve_left ?_ hchange
  rw [scan?] at hscan
  generalize pairsBelow n = l at hscan
  clear hchange
  induction l generalizing marks with
  | nil => exact .inl (Option.some.inj hscan).symm
  | cons pair l ih =>
      obtain ⟨next, hvisit, hrest⟩ := Option.bind_eq_some_iff.mp hscan
      exact (progress_visit? hvisit).trans (ih hrest)

end FlatTable

namespace Marks

variable {n : Nat} {marks : Marks n} {test : Marks n → Fin n × Fin n → Bool}
  {test? : FlatTable Bool → Nat × Nat → Option Bool}

/-- Marks in an array. -/
def flat (marks : Marks n) : FlatTable Bool := Table.flat id marks

/-- A pair without bounds. -/
def pairVal (pair : Fin n × Fin n) : Nat × Nat := (pair.1.val, pair.2.val)

theorem flat_inj {other : Marks n} (h : marks.flat = other.flat) : marks = other := by
  apply Table.ext
  intro p q
  have hread := Table.get?_flat id marks p q
  have hread' := Table.get?_flat id other p q
  rw [← flat, h, flat, hread', Option.some.injEq] at hread
  exact hread.symm

theorem map_val_below (p : Fin n) : (below p).map Fin.val = List.range p := by
  rw [below, List.map_map, ← List.map_coe_finRange_eq_range]
  rfl

theorem pairsBelow_flat : FlatTable.pairsBelow n = (pairsBelow n).map pairVal := by
  rw [FlatTable.pairsBelow, ← List.map_coe_finRange_eq_range, List.flatMap_map, pairsBelow,
    List.map_flatMap]
  refine List.flatMap_congr fun p _ => ?_
  rw [← map_val_below, List.map_map, List.map_map]
  rfl

theorem scan?_flat
    (htest : ∀ marks pair, test? (flat marks) (pairVal pair) = some (test marks pair)) :
    FlatTable.scan? n test? marks.flat = some (scan test marks).flat := by
  rw [FlatTable.scan?, pairsBelow_flat]
  apply foldlM_map_eq_some
  intro marks pair _
  apply access_eq_some (htest marks pair)
  rw [visit]
  cases test marks pair with
  | true =>
      apply access_eq_some (Table.set?_flat id marks pair.1 pair.2 true)
      exact Table.set?_flat id (marks.set pair.1 pair.2 true) pair.2 pair.1 true
  | false => rfl

end Marks

namespace FlatDFA

variable {α : Type} [TotalOrd α]

/-- Whether one state of a pair is final and the other one is not. -/
def differ? (d : FlatDFA α) (_ : FlatTable Bool) (pair : Nat × Nat) : Option Bool :=
  some (decide (pair.1 ∈ d.finals) != decide (pair.2 ∈ d.finals))

/-- Whether a pair has no mark, but some letter leads it to a pair with a mark. -/
def separates? (d : FlatDFA α) (marks : FlatTable Bool) (pair : Nat × Nat) : Option Bool := do
  let known ← marks.get? pair.1 pair.2
  if known then return false
  else (List.range d.alphabet.size).anyM fun letter => do
    let first ← d.table.get? pair.1 letter
    let second ← d.table.get? pair.2 letter
    marks.get? first second

/-- Scans all pairs until a scan marks none. -/
def settleMarks? (d : FlatDFA α) (marks : FlatTable Bool) : Option (FlatTable Bool) :=
  match _hscan : FlatTable.scan? d.table.height d.separates? marks with
  | none => none
  | some after => if _hsettled : after = marks then some marks else d.settleMarks? after
termination_by marks.unmarked
decreasing_by exact FlatTable.unmarked_lt_of_scan? _hscan _hsettled

/-- Marks the distinguishable pairs. -/
def fill? (d : FlatDFA α) : Option (FlatTable Bool) := do
  let marks ← FlatTable.scan? d.table.height d.differ?
    (.filled d.table.height d.table.height false)
  d.settleMarks? marks

/-- Gives a state the class of the first state before it that it has no mark with, or else a new
class. -/
def numberState? (marks : FlatTable Bool) (numbered : Array Nat × Nat) (state : Nat) :
    Option (Array Nat × Nat) := do
  let same ← (List.range state).findM? fun earlier => (marks.get? state earlier).map not
  match same with
  | some earlier => do
      let number ← numbered.1[earlier]?
      let numbers ← setAt? numbered.1 state number
      return (numbers, numbered.2)
  | none => do
      let numbers ← setAt? numbered.1 state numbered.2
      return (numbers, numbered.2 + 1)

/-- The classes of all states, and how many classes there are. -/
def numberStates? (states : Nat) (marks : FlatTable Bool) : Option (Array Nat × Nat) :=
  (List.range states).foldlM (numberState? marks) (.replicate states 0, 0)

/-- The rows of the classes; the row of a class is written for each of its members. -/
def classRows? (d : FlatDFA α) (numbers : Array Nat) (classes : Nat) : Option (FlatTable Nat) :=
  (List.range d.table.height).foldlM
    (fun table state => do
      let number ← numbers[state]?
      table.writeRow? number d.alphabet.size fun letter => do
        let target ← d.table.get? state letter
        numbers[target]?)
    (.filled classes d.alphabet.size 0)

/-- The automaton of the classes. -/
def merge? (d : FlatDFA α) (numbers : Array Nat) (classes : Nat) : Option (FlatDFA α) := do
  let table ← d.classRows? numbers classes
  let finals ← d.finals.toList.mapM fun final => numbers[final]?
  return ⟨d.alphabet, table, .ofList finals⟩

/-- The automaton with the fewest states for the same words. -/
def minimize? (d : FlatDFA α) : Option (FlatDFA α) := do
  let trimmed ← d.trim?
  let marks ← trimmed.fill?
  let numbered ← numberStates? trimmed.table.height marks
  trimmed.merge? numbered.1 numbered.2

/-- Over no symbols an automaton without states is not minimized. -/
theorem minimize?_without_states {finals : SortedSet Nat} :
    (⟨∅, .empty 0, finals⟩ : FlatDFA α).minimize? = none := by
  rw [minimize?, trim?_without_states]
  rfl

/-- Minimization on a machine, which must have room for a new number of every state. -/
def minimizeOn? (m : Machine) (d : FlatDFA α) : Option (FlatDFA α) := do
  m.allocate d.table.height
  d.minimize?

/-- Whether every state is reachable and any two states are distinguishable. -/
def isMinimal? (d : FlatDFA α) : Option Bool := do
  let reached ← d.reachable?
  if reached.size = d.table.height then
    let marks ← d.fill?
    (FlatTable.pairsBelow d.table.height).allM fun pair => marks.get? pair.1 pair.2
  else return false

end FlatDFA

namespace DFA

variable {α : Type} [TotalOrd α] {d : DFA α} {marks : Marks d.states}

/-! ## Distinguishable pairs -/

theorem differ?_flat (marks : Marks d.states) (pair : d.State × d.State) :
    d.flat.differ? marks.flat (Marks.pairVal pair) = some (d.differ marks pair) := by
  have hfinal : ∀ state : d.State, decide (state.val ∈ d.flat.finals) = d.isFinal state := by
    intro state
    rw [Bool.eq_iff_iff, decide_eq_true_eq]
    exact val_mem_marked
  exact congrArg some (congrArg₂ bne (hfinal pair.1) (hfinal pair.2))

theorem separates?_flat (marks : Marks d.states) (pair : d.State × d.State) :
    d.flat.separates? marks.flat (Marks.pairVal pair) = some (d.separates marks pair) := by
  have hread : ∀ p q : d.State, marks.flat.get? p q = some (marks.get p q) :=
    Table.get?_flat id marks
  have hletters : (List.range d.alphabet.size).anyM (fun letter => do
      let first ← d.flat.table.get? pair.1 letter
      let second ← d.flat.table.get? pair.2 letter
      marks.flat.get? first second) =
        some ((Alphabet.letters d.alphabet).any fun letter =>
          marks.get (d.next pair.1 letter) (d.next pair.2 letter)) := by
    rw [← List.map_coe_finRange_eq_range]
    apply anyM_map_eq_some
    intro letter _
    apply access_eq_some (table_get?_flat pair.1 letter)
    apply access_eq_some (table_get?_flat pair.2 letter)
    exact hread _ _
  apply access_eq_some (hread pair.1 pair.2)
  rw [separates]
  cases marks.get pair.1 pair.2 with
  | true => rfl
  | false => exact hletters

theorem scan?_separates (marks : Marks d.states) :
    FlatTable.scan? d.flat.table.height d.flat.separates? marks.flat =
      some (Marks.scan d.separates marks).flat :=
  Marks.scan?_flat separates?_flat

theorem settleMarks?_flat (marks : Marks d.states) :
    d.flat.settleMarks? marks.flat = some (d.settleMarks marks).flat := by
  fun_induction settleMarks d marks with
  | case1 marks after hsettled =>
      rw [FlatDFA.settleMarks?]
      split
      next hnone => cases hnone.symm.trans (scan?_separates marks)
      next found hsome =>
        obtain rfl := Option.some.inj ((scan?_separates marks).symm.trans hsome)
        exact dif_pos (congrArg Marks.flat hsettled)
  | case2 marks after hchange ih =>
      rw [FlatDFA.settleMarks?, ← ih]
      split
      next hnone => cases hnone.symm.trans (scan?_separates marks)
      next found hsome =>
        obtain rfl := Option.some.inj ((scan?_separates marks).symm.trans hsome)
        exact dif_neg fun h => hchange (Marks.flat_inj h)

theorem fill?_flat : d.flat.fill? = some d.fill.flat := by
  have hempty : (.filled d.states d.states false : FlatTable Bool) =
      Marks.flat (.filled d.states d.states false) := by
    rw [Marks.flat, Table.flat_filled, id]
  have hstart : FlatTable.scan? d.states d.flat.differ? (.filled d.states d.states false) =
      some (Marks.scan d.differ (.filled d.states d.states false)).flat := by
    rw [hempty]
    exact Marks.scan?_flat differ?_flat
  exact access_eq_some hstart (settleMarks?_flat _)

/-! ## Class numbers -/

section Places

variable {n : Nat} {l : List (Fin n)} {p : Fin n}

/-- In an increasing list a number has the place that the numbers below it leave. -/
theorem idxOf_eq_length_filter (hl : l.Pairwise (· < ·)) (hp : p ∈ l) :
    l.idxOf p = (l.filter (·.val < p.val)).length := by
  induction l with
  | nil => exact absurd hp List.not_mem_nil
  | cons q l ih =>
      obtain ⟨hq, hl⟩ := List.pairwise_cons.mp hl
      rcases List.mem_cons.mp hp with hsame | hlater
      · subst hsame
        have hnone : (p :: l).filter (·.val < p.val) = [] := by
          apply List.filter_eq_nil_iff.mpr
          intro r hr
          rcases List.mem_cons.mp hr with hfirst | hrest
          · simp [hfirst]
          · simpa using Nat.le_of_lt (hq r hrest)
        rw [hnone, List.idxOf_cons_self, List.length_nil]
      · have hlt : q.val < p.val := hq p hlater
        rw [List.idxOf_cons_ne _ (Fin.ne_of_lt hlt), ih hl hlater,
          List.filter_cons_of_pos (by simpa using hlt), List.length_cons]

theorem lt_succ_iff_of_ne {q : Fin n} (h : q ≠ p) : q.val < p.val + 1 ↔ q.val < p.val := by
  have hval : q.val ≠ p.val := fun heq => h (Fin.ext heq)
  omega

theorem length_filter_lt_succ (hl : l.Nodup) (p : Fin n) :
    (l.filter (·.val < p.val + 1)).length =
      (l.filter (·.val < p.val)).length + if p ∈ l then 1 else 0 := by
  induction l with
  | nil => rfl
  | cons q l ih =>
      obtain ⟨hq, hl⟩ := List.nodup_cons.mp hl
      have hrest := ih hl
      have hval : q.val = p.val ↔ q = p := Fin.ext_iff.symm
      grind

end Places

/-- The number of the class of a state. -/
def classNumber (d : DFA α) (p : d.State) : Nat := d.classes.leaderList.idxOf (d.classes.leader p)

/-- The class numbers of the states below a bound. -/
def classNumbers (d : DFA α) (k : Nat) : Array Nat :=
  .ofFn fun p : d.State => if p.val < k then d.classNumber p else 0

/-- How many leaders there are below a bound. -/
def leadersBelow (d : DFA α) (k : Nat) : Nat :=
  (d.classes.leaderList.filter fun p => p.val < k).length

theorem leadersBelow_succ (p : d.State) :
    d.leadersBelow (p + 1) = d.leadersBelow p + if p ∈ d.classes.leaderList then 1 else 0 :=
  length_filter_lt_succ (pairwise_leaderList.imp fun hlt => Fin.ne_of_lt hlt) p

theorem leadersBelow_states : d.leadersBelow d.states = (d.merge d.classes).states := by
  rw [states_merge, leadersBelow, List.filter_eq_self.mpr]
  intro p _
  simp

theorem classNumber_of_mem {p : d.State} (hp : p ∈ d.classes.leaderList) :
    d.classNumber p = d.leadersBelow p := by
  rw [classNumber, Partition.mem_leaderList.mp hp, leadersBelow]
  exact idxOf_eq_length_filter pairwise_leaderList hp

theorem classNumber_of_leader_eq {p q : d.State} (h : d.classes.leader p = d.classes.leader q) :
    d.classNumber p = d.classNumber q := by
  rw [classNumber, h, classNumber]

theorem setAt?_classNumbers (p : d.State) :
    setAt? (d.classNumbers p) p (d.classNumber p) = some (d.classNumbers (p + 1)) := by
  rw [classNumbers, setAt?_ofFn, classNumbers]
  congr 2
  funext q
  by_cases hq : q = p
  · rw [hq, Function.update_self, if_pos (Nat.lt_succ_self _)]
  · rw [Function.update_of_ne hq]
    simp only [lt_succ_iff_of_ne hq]

/-- The first state before a state that it has no mark with is the first one of its class. -/
theorem findM?_unmarked (p : d.State) :
    (List.range p).findM? (fun earlier => (d.fill.flat.get? p earlier).map not) =
      some (((Marks.below p).find? fun q => d.classes.leader p = d.classes.leader q).map
        Fin.val) := by
  rw [← Marks.map_val_below]
  apply findM?_map_eq_some
  intro q _
  have hread : d.fill.flat.get? p q = some (d.distinguishable p q) := by
    rw [Marks.flat, Table.get?_flat, get_fill, id]
  rw [hread, Option.map_some, distinguishable, decide_not, Bool.not_not]

theorem numberState?_flat (p : d.State) :
    FlatDFA.numberState? d.fill.flat (d.classNumbers p, d.leadersBelow p) p =
      some (d.classNumbers (p + 1), d.leadersBelow (p + 1)) := by
  apply access_eq_some (findM?_unmarked p)
  cases hfind : (Marks.below p).find? fun q => d.classes.leader p = d.classes.leader q with
  | some q =>
      have hlt : q < p := Marks.mem_below.mp (List.mem_of_find?_eq_some hfind)
      have hleader : d.classes.leader p = d.classes.leader q := by
        simpa using List.find?_some hfind
      have hfollows : p ∉ d.classes.leaderList := by
        intro hleads
        have hle : d.classes.leader q ≤ q := Partition.leader_le
        rw [← hleader, Partition.mem_leaderList.mp hleads] at hle
        exact absurd hlt (Fin.not_lt.mpr hle)
      have hread : (d.classNumbers p)[q.val]? = some (d.classNumber p) := by
        rw [classNumber_of_leader_eq hleader]
        simp only [classNumbers, Array.getElem?_ofFn, Fin.is_lt, dif_pos, Fin.eta]
        rw [if_pos (Fin.lt_def.mp hlt)]
      rw [leadersBelow_succ, if_neg hfollows, Nat.add_zero]
      apply access_eq_some hread
      exact access_eq_some (setAt?_classNumbers p) rfl
  | none =>
      have hleads : p ∈ d.classes.leaderList := by
        rw [Partition.mem_leaderList]
        refine Fin.le_antisymm Partition.leader_le (Fin.not_lt.mp ?_)
        intro hlt
        have hother := List.find?_eq_none.mp hfind _ (Marks.mem_below.mpr hlt)
        rw [decide_eq_true_eq, Partition.leader_leader] at hother
        exact hother rfl
      have hwrite := setAt?_classNumbers p
      rw [classNumber_of_mem hleads] at hwrite
      rw [leadersBelow_succ, if_pos hleads]
      exact access_eq_some hwrite rfl

theorem numberStates?_flat : FlatDFA.numberStates? d.states d.fill.flat =
    some (d.classNumbers d.states, (d.merge d.classes).states) := by
  have hstart : (.replicate d.states 0, 0) = (d.classNumbers 0, d.leadersBelow 0) := by
    have hnumbers : .replicate d.states 0 = d.classNumbers 0 := by
      apply Array.ext <;> simp [classNumbers]
    have hcount : d.leadersBelow 0 = 0 := by simp [leadersBelow]
    rw [hnumbers, hcount]
  rw [FlatDFA.numberStates?, hstart, ← leadersBelow_states]
  exact foldlM_range (m := Option) (s := fun k => (d.classNumbers k, d.leadersBelow k))
    fun k hk => numberState?_flat ⟨k, hk⟩

/-! ## Merging -/

section Merge

variable {i : (d.merge d.classes).State} {p : d.State} (hi : d.unmerge i = d.classes.leader p)
include hi

theorem classNumber_eq : d.classNumber p = i := by
  rw [classNumber, ← hi, idxOf_unmerge]

theorem classNumber_next (letter : d.Letter) :
    d.classNumber (d.next p letter) = (d.merge d.classes).next i letter := by
  apply classNumber_eq
  rw [unmerge_next, hi]
  exact represents_merge.next_eq p letter

theorem isFinal_merge : (d.merge d.classes).isFinal i = d.isFinal p := by
  rw [← isFinal_unmerge, hi]
  exact represents_merge.isFinal_eq p

end Merge

theorem classNumbers_get? (p : d.State) :
    (d.classNumbers d.states)[p.val]? = some (d.classNumber p) := by
  simp [classNumbers]

/-- A class has its row once one of its members has been met. -/
def mergedBelow (d : DFA α) (k : Nat) : FlatTable Nat :=
  .ofFn (d.merge d.classes).states d.alphabet.size fun row letter =>
    if ∃ p : d.State, p.val < k ∧ d.classNumber p = row then
      ((d.merge d.classes).flat.table.get? row letter).getD 0
    else 0

theorem writeRow?_mergedBelow (p : d.State) :
    (d.mergedBelow p).writeRow? (d.classNumber p) d.alphabet.size (fun letter => do
      let target ← d.flat.table.get? p letter
      (d.classNumbers d.states)[target]?) = some (d.mergedBelow (p + 1)) := by
  obtain ⟨i, hi⟩ := exists_unmerge_eq p
  have hvalue : ∀ letter < d.alphabet.size,
      (do
        let target ← d.flat.table.get? p letter
        (d.classNumbers d.states)[target]?) =
          some (((d.merge d.classes).flat.table.get? i letter).getD 0) := by
    intro letter hletter
    let a : d.Letter := ⟨letter, hletter⟩
    have hrow : (d.merge d.classes).flat.table.get? i letter =
        some ((d.merge d.classes).next i a).val := table_get?_flat i a
    rw [hrow, ← classNumber_next hi a]
    exact access_eq_some (table_get?_flat p a) (classNumbers_get? _)
  rw [classNumber_eq hi, mergedBelow, FlatTable.writeRow?_ofFn i.2 hvalue]
  refine congrArg some (FlatTable.ofFn_congr ?_)
  intro row _ letter _
  by_cases hrow : row = i
  · have hmet : ∃ q : d.State, q.val < p.val + 1 ∧ d.classNumber q = row :=
      ⟨p, Nat.lt_succ_self _, (classNumber_eq hi).trans hrow.symm⟩
    rw [if_pos hrow, if_pos hmet, hrow]
  · have hmet : (∃ q : d.State, q.val < p.val + 1 ∧ d.classNumber q = row) ↔
        ∃ q : d.State, q.val < p.val ∧ d.classNumber q = row := by
      refine exists_congr fun q => ?_
      by_cases hq : q = p
      · subst hq
        simp [classNumber_eq hi, Ne.symm hrow]
      · rw [lt_succ_iff_of_ne hq]
    simp only [if_neg hrow, hmet]

theorem classRows?_flat :
    d.flat.classRows? (d.classNumbers d.states) (d.merge d.classes).states =
      some (d.mergedBelow d.states) := by
  have hstart : d.mergedBelow 0 = .filled (d.merge d.classes).states d.alphabet.size 0 := by
    rw [FlatTable.filled_eq_ofFn, mergedBelow]
    simp only [Nat.not_lt_zero, false_and, exists_false, if_false]
  have hloop := foldlM_range (m := Option) (n := d.states) (s := d.mergedBelow)
    (f := fun table state => do
      let number ← (d.classNumbers d.states)[state]?
      table.writeRow? number d.alphabet.size fun letter => do
        let target ← d.flat.table.get? state letter
        (d.classNumbers d.states)[target]?)
    (fun k hk => access_eq_some (classNumbers_get? ⟨k, hk⟩) (writeRow?_mergedBelow ⟨k, hk⟩))
  rw [hstart] at hloop
  exact hloop

theorem merge?_flat : d.flat.merge? (d.classNumbers d.states) (d.merge d.classes).states =
    some (d.merge d.classes).flat := by
  have hread : ∀ final ∈ d.flat.finals.toList,
      (d.classNumbers d.states)[final]? = some ((d.classNumbers d.states)[final]?.getD 0) := by
    intro final hfinal
    have hlt : final < d.states := d.wellFormed_flat.finals_lt final hfinal
    rw [classNumbers_get? ⟨final, hlt⟩, Option.getD_some]
  apply access_eq_some classRows?_flat
  apply access_eq_some (mapM_eq_some hread)
  refine congrArg some (flat_eq (d := d.merge d.classes) ?_ ?_).symm
  · intro i letter
    have hleads : d.unmerge i = d.classes.leader (d.unmerge i) :=
      (represents_merge.eq_self _ (keptState_mem i)).symm
    have hmet : ∃ p : d.State, p.val < d.states ∧ d.classNumber p = i.val :=
      ⟨d.unmerge i, Fin.is_lt _, classNumber_eq hleads⟩
    rw [if_pos hmet, table_get?_flat, Option.getD_some]
  · intro number
    rw [SortedSet.mem_ofList, List.mem_map]
    constructor
    · intro ⟨final, hfinal, hnumber⟩
      obtain ⟨hlt, hmark⟩ := mem_marked.mp hfinal
      obtain ⟨i, hi⟩ := exists_unmerge_eq (d := d) ⟨final, hlt⟩
      rw [classNumbers_get? ⟨final, hlt⟩, Option.getD_some, classNumber_eq hi] at hnumber
      subst hnumber
      exact ⟨i.2, (isFinal_merge hi).trans hmark⟩
    · intro ⟨h, hmark⟩
      let i : (d.merge d.classes).State := ⟨number, h⟩
      have hleads : d.unmerge i = d.classes.leader (d.unmerge i) :=
        (represents_merge.eq_self _ (keptState_mem i)).symm
      have hfinal : d.isFinal (d.unmerge i) := (isFinal_merge hleads).symm.trans hmark
      refine ⟨d.unmerge i, mem_marked.mpr ⟨(d.unmerge i).2, hfinal⟩, ?_⟩
      rw [classNumbers_get?, Option.getD_some, classNumber_eq hleads]

/-! ## Minimal automata -/

theorem minimize?_flat : d.flat.minimize? = some d.minimize.flat := by
  apply access_eq_some trim?_flat
  apply access_eq_some fill?_flat
  apply access_eq_some numberStates?_flat
  exact merge?_flat

theorem minimizeOn?_flat {m : Machine} :
    d.flat.minimizeOn? m = (d.minimizeOn? m).map flat := by
  rw [FlatDFA.minimizeOn?, minimizeOn?, minimize?_flat]
  change (m.allocate d.states).bind _ = _
  cases m.allocate d.states <;> rfl

theorem isSome_minimizeOn?_iff {m : Machine} :
    (d.minimizeOn? m).isSome ↔ d.states ≤ m.maxCells := by
  unfold minimizeOn?
  by_cases hroom : d.states ≤ m.maxCells
  · rw [Machine.allocate_of_le hroom]
    exact iff_of_true rfl hroom
  · rw [Machine.allocate_of_lt (Nat.lt_of_not_le hroom)]
    exact iff_of_false (fun h => nomatch h) hroom

/-- All pairs are distinguishable when every state leads its class. -/
theorem all_distinguishable : ((Marks.pairsBelow d.states).all fun pair =>
    d.distinguishable pair.1 pair.2) =
      (List.finRange d.states).all fun state => d.classes.leader state = state := by
  rw [Bool.eq_iff_iff, List.all_eq_true, List.all_eq_true]
  constructor
  · intro h p _
    rw [decide_eq_true_eq]
    refine Fin.le_antisymm Partition.leader_le (Fin.not_lt.mp ?_)
    intro hlt
    have hpair := h (p, d.classes.leader p) (Marks.mem_pairsBelow.mpr hlt)
    rw [distinguishable, decide_eq_true_eq, Partition.leader_leader] at hpair
    exact hpair rfl
  · intro h pair hpair
    have hleader : ∀ p, d.classes.leader p = p := by
      intro p
      simpa using h p (List.mem_finRange p)
    have hlt : pair.2 < pair.1 := Marks.mem_pairsBelow.mp hpair
    rw [distinguishable, decide_eq_true_eq, hleader, hleader]
    exact Fin.ne_of_gt hlt

theorem isMinimal?_flat : d.flat.isMinimal? = some d.isMinimal := by
  have hsize : (d.reachable.image Fin.val).size = d.reachable.size := by
    have hlength := congrArg List.length d.toList_image_reachable
    rw [List.length_map] at hlength
    exact Array.length_toList.symm.trans (hlength.trans Array.length_toList)
  have hpairs : (FlatTable.pairsBelow d.states).allM
      (fun pair => d.fill.flat.get? pair.1 pair.2) =
        some ((Marks.pairsBelow d.states).all fun pair => d.distinguishable pair.1 pair.2) := by
    rw [Marks.pairsBelow_flat]
    apply allM_map_eq_some
    intro pair _
    rw [← get_fill]
    exact Table.get?_flat id d.fill pair.1 pair.2
  apply access_eq_some reachable?_flat
  rw [isMinimal, hsize, ← all_distinguishable]
  by_cases hall : d.reachable.size = d.states
  · have hheight : d.reachable.size = d.flat.table.height := hall
    rw [if_pos hheight, beq_iff_eq.mpr hall, Bool.true_and]
    exact access_eq_some fill?_flat hpairs
  · have hheight : d.reachable.size ≠ d.flat.table.height := hall
    rw [if_neg hheight, beq_eq_false_iff_ne.mpr hall, Bool.false_and]
    rfl

end DFA

end LanguageTheory
