import LanguageTheory.Proofs.NFA.Edges

/-!
# Copies of automata in drafts

Splicing puts a copy of an automaton behind the own states of a draft, and no edge leads from one part
to the other (`IsSplice`). A draft that holds such a copy somewhere, among whatever else, moves within
it as the automaton does (`HoldsCopy.statesFrom_eq`), so a state that only leads into the copy answers
as the automaton, once the copies of its final states are marked (`HoldsCopy.recognizesFrom_eq`).
-/

namespace LanguageTheory.NFA

open Draft

variable {α : Type} [TotalOrd α] {n m : NFA α} {b c d other : Draft α} {w : List α}
  {p q head offset : Nat} {label : Option α} {answer : Bool}

/-! ## Words from a state -/

/-- The set of states that a word leads to from a state, unless a symbol of it is foreign. -/
def statesFrom (n : NFA α) (p : Nat) (w : List α) : Except (ForeignSymbol α) (SortedSet Nat) :=
  (Alphabet.encode n.alphabet w).map fun letters => n.run (n.closure {p}) letters

/-- Whether a word leads from a state to a final one, unless a symbol of it is foreign. -/
def recognizesFrom (n : NFA α) (p : Nat) (w : List α) : Except (ForeignSymbol α) Bool :=
  (n.statesFrom p w).map (·.meets n.finals)

theorem recognizesFrom_eq_map : n.recognizesFrom p w = (Alphabet.encode n.alphabet w).map
    fun letters => (n.run (n.closure {p}) letters).meets n.finals := by
  rw [recognizesFrom, statesFrom]
  cases Alphabet.encode n.alphabet w <;> rfl

theorem recognizesFrom_zero : n.recognizesFrom 0 w = n.recognizes w := recognizesFrom_eq_map

theorem statesFrom_eq_error_iff {fault : ForeignSymbol α} :
    n.statesFrom p w = .error fault ↔ Alphabet.IsFirstForeign n.alphabet w fault := by
  rw [← Alphabet.encode_eq_error_iff, statesFrom]
  cases Alphabet.encode n.alphabet w <;> simp [Except.map]

/-- The set is that of the ends of the paths. -/
theorem mem_of_statesFrom_eq_ok {states : SortedSet Nat} (h : n.statesFrom p w = .ok states) :
    q ∈ states ↔ n.Path p w q := by
  rw [statesFrom] at h
  cases hencode : Alphabet.encode n.alphabet w with
  | error fault =>
      rw [hencode] at h
      cases h
  | ok letters =>
      rw [hencode] at h
      obtain rfl := Except.ok.inj h
      rw [mem_run_closure, Alphabet.encode_eq_ok_iff.mp hencode]
      simp only [SortedSet.mem_singleton, exists_eq_left]

theorem recognizesFrom_eq_ok_true_iff :
    n.recognizesFrom p w = .ok true ↔ w ∈ n.languageFrom p := by
  rw [recognizesFrom]
  cases hstates : n.statesFrom p w with
  | error fault =>
      refine iff_of_false (fun h => by cases h) ?_
      intro hw
      obtain ⟨q, _, hpath⟩ := hw
      obtain ⟨letters, hletters⟩ := exists_decode_of_path hpath
      rw [statesFrom, Alphabet.encode_eq_ok_iff.mpr hletters] at hstates
      cases hstates
  | ok states =>
      rw [Except.map, Except.ok.injEq, SortedSet.meets_iff]
      simp only [mem_of_statesFrom_eq_ok hstates]
      exact exists_congr fun q => and_comm

theorem Draft.Path.target_lt (h : b.Path p w q) (hp : p < b.states) : q < b.states := by
  induction h with
  | nil => exact hp
  | cons hedge _ ih => exact ih hedge.target_lt

/-! ## Copies -/

/-- From `offset` on, a draft has a copy of another one, and no edge leaves the copy. -/
structure Draft.HoldsCopy (c : Draft α) (offset : Nat) (b : Draft α) : Prop where
  alphabet_eq : c.alphabet = b.alphabet
  edge_iff : ∀ p < b.states, ∀ label q,
    c.Edge (offset + p) label q ↔ ∃ q', b.Edge p label q' ∧ q = offset + q'

namespace Draft.HoldsCopy

/-- The induction is on the path in the larger draft, whose states stay in the copy. -/
theorem path_iff (h : c.HoldsCopy offset b) (hp : p < b.states) :
    c.Path (offset + p) w q ↔ ∃ q', b.Path p w q' ∧ q = offset + q' := by
  constructor
  · intro hpath
    generalize hstart : offset + p = start at hpath
    induction hpath generalizing p with
    | nil => exact ⟨p, .nil, hstart.symm⟩
    | cons hedge _ ih =>
        subst hstart
        -- the edge stays in the copy, so the rest of the path starts in it
        obtain ⟨next, hnext, rfl⟩ := (h.edge_iff p hp _ _).mp hedge
        obtain ⟨q', hrest, rfl⟩ := ih hnext.target_lt rfl
        exact ⟨q', .cons hnext hrest, rfl⟩
  · intro hcopy
    obtain ⟨q', hpath, rfl⟩ := hcopy
    apply hpath.map (f := (offset + ·))
    intro s label t hedge
    exact (h.edge_iff s hedge.source_lt label _).mpr ⟨t, hedge, rfl⟩

/-- Edges and final marks outside the copy do not matter to it. -/
theorem of_edge_iff (h : c.HoldsCopy offset b) (halphabet : d.alphabet = c.alphabet)
    (hedge : ∀ p < b.states, ∀ label q, d.Edge (offset + p) label q ↔ c.Edge (offset + p) label q) :
    d.HoldsCopy offset b where
  alphabet_eq := halphabet.trans h.alphabet_eq
  edge_iff p hp label q := (hedge p hp label q).trans (h.edge_iff p hp label q)

variable (h : m.HoldsCopy offset n.toDraft)
include h

/-- The sets of states after a word are moved as the states are. -/
theorem statesFrom_eq (hp : p < n.states) :
    m.statesFrom (offset + p) w = (n.statesFrom p w).map (shift offset) := by
  cases hn : n.statesFrom p w with
  | error fault =>
      rw [statesFrom_eq_error_iff, ← h.alphabet_eq] at hn
      exact statesFrom_eq_error_iff.mpr hn
  | ok states =>
      cases hcopy : m.statesFrom (offset + p) w with
      | error fault =>
          rw [statesFrom_eq_error_iff, h.alphabet_eq, ← statesFrom_eq_error_iff (p := p), hn] at hcopy
          cases hcopy
      | ok copied =>
          refine congrArg Except.ok (SortedSet.ext fun q => ?_)
          rw [mem_of_statesFrom_eq_ok hcopy, h.path_iff hp, mem_shift]
          simp only [mem_of_statesFrom_eq_ok hn]

section Entry

variable (hhead : ∀ label q, m.Edge head label q ↔ label = none ∧ q = offset)
include hhead

/-- A state whose only edge is an epsilon edge into the copy leads to itself by nothing, and to what
the initial state of the copy leads to. -/
theorem path_entry_iff :
    m.Path head w q ↔ w = [] ∧ q = head ∨ ∃ q', n.Path 0 w q' ∧ q = offset + q' := by
  have hinitial := h.path_iff (w := w) (q := q) n.states_pos
  rw [← hinitial, Nat.add_zero]
  constructor
  · intro hpath
    cases hpath with
    | nil => exact .inl ⟨rfl, rfl⟩
    | cons hedge hrest =>
        obtain ⟨rfl, rfl⟩ := (hhead _ _).mp hedge
        exact .inr hrest
  · intro hsplit
    rcases hsplit with ⟨rfl, rfl⟩ | hrest
    · exact .nil
    · exact .epsilon ((hhead none offset).mpr ⟨rfl, rfl⟩) hrest

/-- Such a state answers as the automaton, when its own mark is not set and those of the copy are. -/
theorem recognizesFrom_eq (hhead_final : head ∉ m.finals)
    (hmarks : ∀ q < n.states, offset + q ∈ m.finals ↔ q ∈ n.finals) :
    m.recognizesFrom head w = n.recognizes w := by
  rw [recognizesFrom_eq_map, recognizes]
  apply Alphabet.map_encode_congr h.alphabet_eq
  rw [← recognizesFrom_eq_map, ← recognizes, recognizesFrom_eq_ok_true_iff,
    recognizes_eq_ok_true_iff]
  constructor
  · intro hw
    obtain ⟨q, hq, hpath⟩ := hw
    rcases (h.path_entry_iff hhead).mp hpath with ⟨_, rfl⟩ | ⟨q', hpath', rfl⟩
    -- a path that ends at its start would need the mark of the entry
    · exact absurd hq hhead_final
    · exact ⟨q', (hmarks q' (hpath'.target_lt n.states_pos)).mp hq, hpath'⟩
  · intro hw
    obtain ⟨q, hq, hpath⟩ := hw
    have hmark := (hmarks q (n.finals_lt q hq)).mpr hq
    exact ⟨offset + q, hmark, (h.path_entry_iff hhead).mpr (.inr ⟨q, hpath, rfl⟩)⟩

end Entry

end Draft.HoldsCopy

/-! ## Splicing -/

/-- A draft that has the states of another one, and behind them a copy of an automaton that is not
linked to them and in which nothing is final. -/
structure Draft.IsSplice (c b : Draft α) (n : NFA α) : Prop where
  alphabet_eq : c.alphabet = b.alphabet
  states_eq : c.states = b.states + n.states
  finals_eq : c.finals = b.finals
  edge_own_iff : ∀ p < b.states, ∀ label q, c.Edge p label q ↔ b.Edge p label q
  holdsCopy : c.HoldsCopy b.states n.toDraft
  apart : ∀ p label q, c.Edge p label q → (p < b.states ↔ q < b.states)
  not_final : ∀ p, b.states + p ∉ c.finals

theorem exists_isSplice (b : Draft α) (n : NFA α) (halphabet : n.alphabet = b.alphabet) :
    ∃ c, b.splice n.toDraft = .ok c ∧ c.IsSplice b n := by
  obtain ⟨c, hsplice, hA, hstates, hfinals, hedge⟩ := exists_splice b n.toDraft halphabet
  refine ⟨c, hsplice, hA, hstates, hfinals, ?_, ⟨hA.trans halphabet.symm, ?_⟩, ?_, ?_⟩
  · intro p hp label q
    rw [hedge]
    refine ⟨fun h => h.resolve_right ?_, .inl⟩
    intro hshifted
    obtain ⟨p', q', _, rfl, _⟩ := hshifted
    omega
  · intro p hp label q
    rw [hedge]
    constructor
    · intro hsplit
      rcases hsplit with hown | ⟨p', q', hcopied, hp', rfl⟩
      · exact absurd hown.source_lt (Nat.not_lt.mpr (Nat.le_add_right _ _))
      · obtain rfl := Nat.add_left_cancel hp'
        exact ⟨q', hcopied, rfl⟩
    · intro hcopy
      obtain ⟨q', hcopied, rfl⟩ := hcopy
      exact .inr ⟨p, q', hcopied, rfl, rfl⟩
  · intro p label q h
    rcases (hedge p label q).mp h with hown | ⟨p', q', _, rfl, rfl⟩
    · exact iff_of_true hown.source_lt hown.target_lt
    · omega
  · intro p hp
    rw [hfinals] at hp
    exact absurd (b.finals_lt _ hp) (Nat.not_lt.mpr (Nat.le_add_right _ _))

namespace Draft.IsSplice

variable (h : c.IsSplice b n)
include h

/-- The own states are a copy of the draft before, at the same place. -/
theorem holdsCopy_own : c.HoldsCopy 0 b where
  alphabet_eq := h.alphabet_eq
  edge_iff p hp label q := by
    rw [Nat.zero_add, h.edge_own_iff p hp]
    simp only [Nat.zero_add, exists_eq_right']

/-- Words lead from an own state where they led before. -/
theorem path_own_iff (hp : p < b.states) : c.Path p w q ↔ b.Path p w q := by
  have hown := h.holdsCopy_own.path_iff (w := w) (q := q) hp
  simpa only [Nat.zero_add, exists_eq_right'] using hown

/-- Copies that were there before are there still. -/
theorem holdsCopy_of_holdsCopy (hother : b.HoldsCopy offset other)
    (hin : offset + other.states ≤ b.states) : c.HoldsCopy offset other :=
  hother.of_edge_iff h.alphabet_eq fun p hp label q =>
    h.edge_own_iff (offset + p) (by omega) label q

end Draft.IsSplice

/-! ## Entering a copy -/

/-- A state that has just been added: no edge leaves it, and it is not final. -/
structure Draft.IsFresh (c : Draft α) (head : Nat) : Prop where
  lt_states : head < c.states
  not_edge : ∀ label q, ¬ c.Edge head label q
  not_final : head ∉ c.finals

theorem isFresh_addState (b : Draft α) : b.addState.IsFresh b.states where
  lt_states := Nat.lt_succ_self b.states
  not_edge _ _ h := Nat.lt_irrefl b.states (edge_addState_iff.mp h).source_lt
  not_final h := Nat.lt_irrefl b.states (b.finals_lt b.states h)

theorem Draft.IsFresh.of_isSplice (hfresh : b.IsFresh head) (h : c.IsSplice b n) :
    c.IsFresh head where
  lt_states := by
    have hlt := hfresh.lt_states
    have hstates := h.states_eq
    omega
  not_edge label q hedge := hfresh.not_edge label q
    ((h.edge_own_iff head hfresh.lt_states label q).mp hedge)
  not_final := by
    rw [h.finals_eq]
    exact hfresh.not_final

/-- A fresh state is led into a copy in which nothing is final, and the copies of the final states are
marked: from the fresh state, the draft answers as the automaton. -/
theorem Draft.HoldsCopy.exists_enter (hcopy : c.HoldsCopy offset n.toDraft)
    (hin : offset + n.states ≤ c.states) (hunmarked : ∀ q < n.states, offset + q ∉ c.finals)
    (hfresh : c.IsFresh head) (houtside : ∀ p < n.states, offset + p ≠ head) {marks : List Nat}
    (hmarks : ∀ q, q ∈ marks ↔ q ∈ n.finals) :
    ∃ d, ∃ m : NFA α, c.addEpsilon head offset = .ok d ∧
      marks.foldlM (fun d q => d.markFinal (offset + q)) d = .ok m.toDraft ∧
      ∀ w, m.recognizesFrom head w = n.recognizes w := by
  have hoffset : offset < c.states := by
    have hpos := n.states_pos
    omega
  obtain ⟨d, hd, hdc⟩ := exists_addEpsilon hfresh.lt_states hoffset
  obtain ⟨e, he, hed⟩ := exists_foldlM_extends
    (fun d q => d.markFinal (offset + q)) d marks
    fun q hq d' hd' => by
      have hlt := n.finals_lt q ((hmarks q).mp hq)
      have hstates := hdc.states_eq
      exact exists_markFinal (by omega)
  -- in all, one edge and the marks have been added
  have hec := hdc.trans hed
  have hstates : 0 < e.states := by
    have hlt := hfresh.lt_states
    have hsame := hec.states_eq
    omega
  have hedge (p label q) : e.Edge p label q ↔
      c.Edge p label q ∨ label = none ∧ p = head ∧ q = offset := by
    rw [hec.edge_iff]
    simp
  have hfinal (p) : p ∈ e.finals ↔ p ∈ c.finals ∨ ∃ q ∈ n.finals, p = offset + q := by
    rw [hec.mem_finals_iff]
    simp [hmarks]
  refine ⟨d, { e with states_pos := hstates }, hd, he, fun w => ?_⟩
  apply HoldsCopy.recognizesFrom_eq
  · refine hcopy.of_edge_iff hec.alphabet_eq fun p hp _ _ => ?_
    rw [hedge, or_iff_left]
    intro hentry
    exact houtside p hp hentry.2.1
  · intro label q
    rw [hedge, or_iff_right (hfresh.not_edge label q), eq_self, true_and]
  · rw [hfinal]
    intro hmarked
    rcases hmarked with hold | ⟨q, hq, hmark⟩
    · exact hfresh.not_final hold
    · exact houtside q (n.finals_lt q hq) hmark.symm
  · intro q hq
    rw [hfinal, or_iff_right (hunmarked q hq)]
    simp only [Nat.add_left_cancel_iff, exists_eq_right']

end LanguageTheory.NFA
