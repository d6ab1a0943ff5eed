import LanguageTheory.DFA.Distinguish
import LanguageTheory.Table

/-!
# Table filling

A table has a cell for every two states. The pairs of a final state and another one are marked
first; then all pairs are scanned again and again, and those that some letter leads to a marked pair
are marked, until a scan marks none. A scan already sees what it has marked itself. The pairs marked
in the end are the distinguishable ones, so the table says the same as the classes (`get_fill`).
-/

namespace LanguageTheory

/-! ## Progress -/

section Progress

variable {β ι : Type} {size : β → Nat} {a b c : β} {step : β → ι → β} {l : List ι}

/-- Nothing changes, or something gets smaller. -/
def Progress (size : β → Nat) (before after : β) : Prop :=
  after = before ∨ size after < size before

theorem Progress.le (h : Progress size a b) : size b ≤ size a := by
  rcases h with rfl | hlt
  · exact Nat.le_refl _
  · exact Nat.le_of_lt hlt

theorem Progress.trans (hab : Progress size a b) (hbc : Progress size b c) :
    Progress size a c := by
  rcases hbc with rfl | hlt
  · exact hab
  · exact .inr (Nat.lt_of_lt_of_le hlt hab.le)

theorem progress_foldl (hstep : ∀ b i, Progress size b (step b i)) (b : β) :
    Progress size b (l.foldl step b) := by
  induction l generalizing b with
  | nil => exact .inl rfl
  | cons i l ih => exact (hstep b i).trans (ih _)

/-- Steps that change nothing together change nothing one by one. -/
theorem step_eq_of_foldl_eq (hstep : ∀ b i, Progress size b (step b i))
    (hfold : l.foldl step b = b) {i : ι} (hi : i ∈ l) : step b i = b := by
  induction l with
  | nil => exact absurd hi List.not_mem_nil
  | cons j l ih =>
      rw [List.foldl_cons] at hfold
      have hfirst : step b j = b := by
        refine (hstep b j).resolve_right ?_
        intro hlt
        have hrest := (progress_foldl (l := l) hstep (step b j)).le
        rw [hfold] at hrest
        exact Nat.not_le_of_lt hlt hrest
      rw [hfirst] at hfold
      rcases List.mem_cons.mp hi with rfl | hlater
      · exact hfirst
      · exact ih hfold hlater

end Progress

/-! ## Marks -/

/-- Marks on pairs of numbers. -/
abbrev Marks (n : Nat) := Table n n Bool

namespace Marks

variable {n : Nat} {marks : Marks n} {p q r s : Fin n}
  {test : Marks n → Fin n × Fin n → Bool}

/-- The numbers below a number. -/
def below (p : Fin n) : List (Fin n) :=
  (List.finRange p).map (Fin.castLE (Nat.le_of_lt p.2))

theorem mem_below : q ∈ below p ↔ q < p := by
  simp only [below, List.mem_map, List.mem_finRange, true_and]
  constructor
  · intro ⟨i, hi⟩
    subst hi
    exact i.2
  · intro hlt
    exact ⟨⟨q, hlt⟩, rfl⟩

/-- The pairs with the greater number first, in the order of the rows. -/
def pairsBelow (n : Nat) : List (Fin n × Fin n) :=
  (List.finRange n).flatMap fun p => (below p).map (p, ·)

theorem mem_pairsBelow : (p, q) ∈ pairsBelow n ↔ q < p := by
  simp [pairsBelow, List.mem_finRange, mem_below]

/-- Marks a pair in both orders. -/
def mark (marks : Marks n) (p q : Fin n) : Marks n := (marks.set p q true).set q p true

/-- Marks a pair that meets a test. -/
def visit (test : Marks n → Fin n × Fin n → Bool) (marks : Marks n) (pair : Fin n × Fin n) :
    Marks n :=
  if test marks pair then marks.mark pair.1 pair.2 else marks

/-- Visits all pairs in turn. -/
def scan (test : Marks n → Fin n × Fin n → Bool) (marks : Marks n) : Marks n :=
  (pairsBelow n).foldl (visit test) marks

/-- How many cells have no mark. -/
def unmarked (marks : Marks n) : Nat := marks.cells.count false

theorem get_set_true :
    (marks.set p q true).get r s = true ↔ (p = r ∧ q = s) ∨ marks.get r s = true := by
  by_cases hcell : p = r ∧ q = s
  · obtain ⟨rfl, rfl⟩ := hcell
    simp
  · rw [Table.get_set_ne hcell]
    simp [hcell]

theorem get_mark : (marks.mark p q).get r s = true ↔
    (q = r ∧ p = s) ∨ (p = r ∧ q = s) ∨ marks.get r s = true := by
  rw [mark, get_set_true, get_set_true]

theorem progress_set_true : Progress unmarked marks (marks.set p q true) := by
  have hindex := Table.index_lt p.2 q.2
  cases hcell : marks.get p q with
  | true =>
      left
      apply Table.ext
      intro r s
      rw [Bool.eq_iff_iff, get_set_true]
      refine or_iff_right_of_imp ?_
      rintro ⟨rfl, rfl⟩
      exact hcell
  | false =>
      right
      have hread : marks.cells[p.val * n + q.val] = false := hcell
      have hpos : 0 < marks.cells.count false :=
        Vector.count_pos_iff.mpr (hread ▸ Vector.getElem_mem hindex)
      have hcount : unmarked (marks.set p q true) = unmarked marks - 1 := by
        simp [unmarked, Table.set, Vector.count_set, hread]
      rw [hcount]
      exact Nat.sub_one_lt_of_lt hpos

theorem progress_visit (marks : Marks n) (pair : Fin n × Fin n) :
    Progress unmarked marks (visit test marks pair) := by
  unfold visit
  split
  · exact progress_set_true.trans progress_set_true
  · exact .inl rfl

/-- A scan that changes something marks something. -/
theorem unmarked_scan_lt (hchange : scan test marks ≠ marks) :
    unmarked (scan test marks) < unmarked marks :=
  (progress_foldl progress_visit marks).resolve_left hchange

/-- After a scan that changes nothing, the test finds no pair to mark. -/
theorem get_of_scan_eq (hscan : scan test marks = marks) (hpq : q < p)
    (htest : test marks (p, q) = true) : marks.get p q = true := by
  have hvisit : visit test marks (p, q) = marks :=
    step_eq_of_foldl_eq progress_visit hscan (mem_pairsBelow.mpr hpq)
  rw [visit, if_pos htest] at hvisit
  rw [← hvisit]
  exact get_mark.mpr (.inr (.inl ⟨rfl, rfl⟩))

theorem get_visit_of_get (pair : Fin n × Fin n) (hmark : marks.get r s = true) :
    (visit test marks pair).get r s = true := by
  unfold visit
  split
  · exact get_mark.mpr (.inr (.inr hmark))
  · exact hmark

theorem get_foldl_visit_of_get {l : List (Fin n × Fin n)} (hmark : marks.get r s = true) :
    (l.foldl (visit test) marks).get r s = true := by
  induction l generalizing marks with
  | nil => exact hmark
  | cons pair l ih => exact ih (get_visit_of_get pair hmark)

/-- A scan marks what meets the test whatever the marks are. -/
theorem get_scan_of_test (htest : ∀ marks, test marks (p, q) = true) (hpq : q < p) :
    (scan test marks).get p q = true ∧ (scan test marks).get q p = true := by
  obtain ⟨before, after, hsplit⟩ := List.append_of_mem (mem_pairsBelow.mpr hpq)
  rw [scan, hsplit, List.foldl_append, List.foldl_cons, visit, if_pos (htest _)]
  exact ⟨get_foldl_visit_of_get (get_mark.mpr (.inr (.inl ⟨rfl, rfl⟩))),
    get_foldl_visit_of_get (get_mark.mpr (.inl ⟨rfl, rfl⟩))⟩

end Marks

/-! ## Distinguishable pairs -/

namespace DFA

variable {α : Type} [TotalOrd α] {d : DFA α} {marks : Marks d.states} {p q : d.State}
  {test : Marks d.states → d.State × d.State → Bool}

/-- Whether one state of a pair is final and the other one is not. -/
def differ (d : DFA α) (_ : Marks d.states) (pair : d.State × d.State) : Bool :=
  d.isFinal pair.1 != d.isFinal pair.2

/-- Whether a pair has no mark, but some letter leads it to a pair with a mark. -/
def separates (d : DFA α) (marks : Marks d.states) (pair : d.State × d.State) : Bool :=
  !marks.get pair.1 pair.2 &&
    (Alphabet.letters d.alphabet).any fun letter =>
      marks.get (d.next pair.1 letter) (d.next pair.2 letter)

/-- Scans all pairs until a scan marks none. -/
def settleMarks (d : DFA α) (marks : Marks d.states) : Marks d.states :=
  let after := Marks.scan d.separates marks
  if _hsettled : after = marks then marks else d.settleMarks after
termination_by marks.unmarked
decreasing_by exact Marks.unmarked_scan_lt _hsettled

/-- Marks the distinguishable pairs. -/
def fill (d : DFA α) : Marks d.states :=
  d.settleMarks (Marks.scan d.differ (.filled d.states d.states false))

/-- Marks are symmetric, and only distinguishable pairs have one. -/
structure Sound (d : DFA α) (marks : Marks d.states) : Prop where
  symmetric : ∀ p q, marks.get p q = true → marks.get q p = true
  distinguishable : ∀ p q, marks.get p q = true → d.distinguishable p q

theorem distinguishable_comm : d.distinguishable p q = d.distinguishable q p := by
  simp only [distinguishable, ne_comm]

theorem Sound.visit (h : d.Sound marks)
    (htest : ∀ p q, test marks (p, q) = true → d.distinguishable p q) (pair : d.State × d.State) :
    d.Sound (Marks.visit test marks pair) := by
  unfold Marks.visit
  split
  next hmark =>
    constructor
    · intro r s hrs
      rw [Marks.get_mark] at hrs ⊢
      rcases hrs with ⟨rfl, rfl⟩ | ⟨rfl, rfl⟩ | hold
      · exact .inr (.inl ⟨rfl, rfl⟩)
      · exact .inl ⟨rfl, rfl⟩
      · exact .inr (.inr (h.symmetric r s hold))
    · intro r s hrs
      rcases Marks.get_mark.mp hrs with ⟨rfl, rfl⟩ | ⟨rfl, rfl⟩ | hold
      · rw [distinguishable_comm]
        exact htest _ _ hmark
      · exact htest _ _ hmark
      · exact h.distinguishable r s hold
  next => exact h

theorem Sound.scan (h : d.Sound marks)
    (htest : ∀ marks, d.Sound marks → ∀ p q, test marks (p, q) = true → d.distinguishable p q) :
    d.Sound (Marks.scan test marks) := by
  rw [Marks.scan]
  generalize Marks.pairsBelow d.states = l
  induction l generalizing marks with
  | nil => exact h
  | cons pair l ih => exact ih (h.visit (htest marks h) pair)

theorem distinguishable_of_differ (hdiffer : d.differ marks (p, q) = true) :
    d.distinguishable p q :=
  distinguishable_iff.mpr ⟨[], by simpa [differ] using hdiffer⟩

theorem distinguishable_of_separates (h : d.Sound marks)
    (hseparates : d.separates marks (p, q) = true) : d.distinguishable p q := by
  rw [separates, Bool.and_eq_true, List.any_eq_true] at hseparates
  obtain ⟨_, letter, _, hmark⟩ := hseparates
  obtain ⟨letters, hletters⟩ := distinguishable_iff.mp (h.distinguishable _ _ hmark)
  exact distinguishable_iff.mpr ⟨letter :: letters, hletters⟩

theorem sound_differ :
    d.Sound (Marks.scan d.differ (.filled d.states d.states false)) := by
  refine Sound.scan ⟨?_, ?_⟩ fun _ _ _ _ => distinguishable_of_differ
  · intro p q hmark
    simp at hmark
  · intro p q hmark
    simp at hmark

/-- Scanning keeps the marks sound and symmetric, and adds to them. -/
theorem Sound.settleMarks (h : d.Sound marks) : d.Sound (d.settleMarks marks) := by
  fun_induction DFA.settleMarks d marks with
  | case1 => exact h
  | case2 marks after _ ih => exact ih (h.scan fun _ h _ _ => distinguishable_of_separates h)

theorem get_settleMarks_of_get (hmark : marks.get p q = true) :
    (d.settleMarks marks).get p q = true := by
  fun_induction settleMarks d marks with
  | case1 => exact hmark
  | case2 marks after _ ih => exact ih (Marks.get_foldl_visit_of_get hmark)

/-- In the end no pair without a mark is led to one with a mark. -/
theorem scan_settleMarks :
    Marks.scan d.separates (d.settleMarks marks) = d.settleMarks marks := by
  fun_induction settleMarks d marks with
  | case1 marks after hsettled => exact hsettled
  | case2 marks after _ ih => exact ih

theorem sound_fill (d : DFA α) : d.Sound d.fill := sound_differ.settleMarks

theorem get_fill_of_isFinal_ne (hne : d.isFinal p ≠ d.isFinal q) : d.fill.get p q = true := by
  unfold fill
  apply get_settleMarks_of_get
  have hcases : q < p ∨ p < q := by
    rcases Nat.lt_trichotomy q p with hlt | heq | hgt
    · exact .inl hlt
    · exact absurd (congrArg d.isFinal (Fin.ext heq).symm) hne
    · exact .inr hgt
  rcases hcases with hlt | hgt
  · have htest : ∀ marks, d.differ marks (p, q) = true := fun _ => bne_iff_ne.mpr hne
    exact (Marks.get_scan_of_test htest hlt).1
  · have htest : ∀ marks, d.differ marks (q, p) = true := fun _ => bne_iff_ne.mpr hne.symm
    exact (Marks.get_scan_of_test htest hgt).2

/-- Pairs that a letter leads to a pair with a mark have a mark. -/
theorem get_fill_of_next (letter : d.Letter)
    (hnext : d.fill.get (d.next p letter) (d.next q letter) = true) : d.fill.get p q = true := by
  have hstep : ∀ p q : d.State, q < p →
      d.fill.get (d.next p letter) (d.next q letter) = true → d.fill.get p q = true := by
    intro p q hpq hnext
    cases hmark : d.fill.get p q with
    | true => rfl
    | false =>
        have htest : d.separates d.fill (p, q) = true := by
          rw [separates, hmark, Bool.and_eq_true, List.any_eq_true]
          exact ⟨rfl, letter, Alphabet.mem_letters letter, hnext⟩
        exact hmark.symm.trans (Marks.get_of_scan_eq scan_settleMarks hpq htest)
  rcases Nat.lt_trichotomy q p with hlt | heq | hgt
  · exact hstep p q hlt hnext
  · obtain rfl : q = p := Fin.ext heq
    have hself := (d.sound_fill).distinguishable _ _ hnext
    simp [distinguishable] at hself
  · exact d.sound_fill.symmetric _ _ (hstep q p hgt (d.sound_fill.symmetric _ _ hnext))

/-- The pairs marked in the end are the distinguishable ones. -/
theorem get_fill : d.fill.get p q = d.distinguishable p q := by
  rw [Bool.eq_iff_iff]
  constructor
  · exact d.sound_fill.distinguishable p q
  · intro hdistinguishable
    obtain ⟨letters, hletters⟩ := distinguishable_iff.mp hdistinguishable
    clear hdistinguishable
    induction letters generalizing p q with
    | nil => exact get_fill_of_isFinal_ne hletters
    | cons letter letters ih => exact get_fill_of_next letter (ih hletters)

end DFA

end LanguageTheory
