import LanguageTheory.Proofs.Sweep
import LanguageTheory.Proofs.Flat.Minimize
import LanguageTheory.Proofs.DFA.Language
import Mathlib.Data.Nat.Choose.Basic

/-!
# Passes over a table of pairs

The table of pairs is filled by passes that mark in place: a pass reads marks that it has made
itself, notes whether it makes any, and is followed by another one if it does. There is no more than
one pass for each pair of states and a last one, and the pairs that are marked then are the
distinguishable ones (`tableFilling_exact`).
-/

namespace LanguageTheory

theorem FlatTable.length_pairsBelow (n : Nat) : (FlatTable.pairsBelow n).length = n.choose 2 := by
  induction n with
  | zero => rfl
  | succ n ih =>
      have hrows : FlatTable.pairsBelow (n + 1) =
          FlatTable.pairsBelow n ++ (List.range n).map (n, ·) := by
        simp [pairsBelow, List.range_succ]
      rw [hrows, List.length_append, ih, List.length_map, List.length_range,
        Nat.choose_succ_succ' n 1, Nat.choose_one_right, Nat.add_comm]

namespace Marks

variable {n : Nat}

/-- How many pairs have no mark yet. -/
def unmarkedPairs (marks : Marks n) : Nat :=
  ((pairsBelow n).filter fun pair => !marks.get pair.1 pair.2).length

theorem unmarkedPairs_le (marks : Marks n) : marks.unmarkedPairs ≤ n.choose 2 := by
  refine (List.length_filter_le _ _).trans_eq ?_
  rw [← FlatTable.length_pairsBelow, pairsBelow_flat, List.length_map]

theorem unmarkedPairs_mark_lt {marks : Marks n} {pair : Fin n × Fin n} (hpair : pair ∈ pairsBelow n)
    (hunmarked : marks.get pair.1 pair.2 = false) :
    (marks.mark pair.1 pair.2).unmarkedPairs < marks.unmarkedPairs := by
  apply length_filter_lt _ hpair
  · simp [hunmarked]
  · simp [get_mark]
  · intro other hother
    simp only [Bool.not_eq_true', Bool.eq_false_iff, ne_eq, get_mark, not_or] at hother ⊢
    exact hother.2.2

end Marks

namespace DFA

variable {α : Type} [TotalOrd α] {d : DFA α} {marks : Marks d.states} {p q : d.State}

/-! ## Passes -/

/-- Marks the pairs that some letter leads to a marked pair. -/
def pairSweep (d : DFA α) : Sweep (Marks d.states) (d.State × d.State) where
  items := Marks.pairsBelow d.states
  visit marks pair := if d.separates marks pair then some (marks.mark pair.1 pair.2) else none
  size := Marks.unmarkedPairs
  size_lt := by
    intro marks after pair hpair hvisit
    split at hvisit
    next hseparates =>
      obtain rfl := Option.some.inj hvisit
      rw [separates, Bool.and_eq_true, Bool.not_eq_true'] at hseparates
      exact Marks.unmarkedPairs_mark_lt hpair hseparates.1
    next => cases hvisit

/-- Fills the table: the pairs of a final state and another one, then passes until one marks
nothing. -/
def tableFilling (d : DFA α) : Settled (Marks d.states) :=
  d.pairSweep.settle (Marks.scan d.differ (.filled d.states d.states false))

/-- A pass is a scan of all pairs. -/
theorem fst_once_pairSweep : (d.pairSweep.once marks).1 = Marks.scan d.separates marks := by
  rw [Sweep.once, Marks.scan]
  apply (List.foldl_hom Prod.fst _).symm
  intro seen pair
  by_cases hseparates : d.separates seen.1 pair
  · simp [Sweep.note, pairSweep, Marks.visit, hseparates]
  · simp [Sweep.note, pairSweep, Marks.visit, hseparates]

theorem snd_once_pairSweep :
    (d.pairSweep.once marks).2 = true ↔ Marks.scan d.separates marks ≠ marks := by
  rw [← fst_once_pairSweep]
  constructor
  · intro hchanged hsame
    have hlt := Sweep.size_once_lt hchanged
    rw [hsame] at hlt
    exact Nat.lt_irrefl _ hlt
  · intro hne
    by_contra hunchanged
    exact hne (Sweep.once_unchanged (Bool.eq_false_iff.mpr hunchanged)).1

/-- Passes that note their changes end as scans do that are compared with the table before. -/
theorem state_settle_pairSweep : (d.pairSweep.settle marks).state = d.settleMarks marks := by
  fun_induction settleMarks d marks with
  | case1 marks after hsettled =>
      have hunchanged := snd_once_pairSweep.not_left.mpr hsettled
      rw [Sweep.settle, dif_neg hunchanged, fst_once_pairSweep]
      exact hsettled
  | case2 marks after hchange ih =>
      rw [Sweep.settle, dif_pos (snd_once_pairSweep.mpr hchange), fst_once_pairSweep]
      exact ih

theorem state_tableFilling : d.tableFilling.state = d.fill := state_settle_pairSweep

theorem get_tableFilling : d.tableFilling.state.get p q = d.distinguishable p q := by
  rw [state_tableFilling, get_fill]

/-! ## Exactness -/

/-- States are distinguishable when some word leads exactly one of them to a final state. -/
theorem distinguishable_iff_exists_word : d.distinguishable p q ↔
    ∃ w, (∀ a ∈ w, a ∈ d.alphabet) ∧ Xor (w ∈ d.languageFrom p) (w ∈ d.languageFrom q) := by
  simp only [xor_iff_not_iff]
  rw [distinguishable_iff]
  constructor
  · intro h
    obtain ⟨letters, hne⟩ := h
    refine ⟨Alphabet.decode d.alphabet letters, Alphabet.exists_decode_iff.mp ⟨letters, rfl⟩, ?_⟩
    rwa [decode_mem_languageFrom_iff, decode_mem_languageFrom_iff, ← Bool.eq_iff_iff]
  · intro h
    obtain ⟨w, hword, hne⟩ := h
    obtain ⟨letters, rfl⟩ := Alphabet.exists_decode_iff.mpr hword
    refine ⟨letters, ?_⟩
    rwa [decode_mem_languageFrom_iff, decode_mem_languageFrom_iff, ← Bool.eq_iff_iff] at hne

theorem equivalence_not_distinguishable (d : DFA α) :
    Equivalence fun p q : d.State => d.distinguishable p q = false := by
  have hsame : ∀ p q : d.State,
      d.distinguishable p q = false ↔ d.classes.leader p = d.classes.leader q := by
    intro p q
    simp [distinguishable]
  constructor
  · intro p
    exact (hsame p p).mpr rfl
  · intro p q hpq
    exact (hsame q p).mpr ((hsame p q).mp hpq).symm
  · intro p q r hpq hqr
    exact (hsame p r).mpr (((hsame p q).mp hpq).trans ((hsame q r).mp hqr))

/-- Filling the table ends after no more passes than there are pairs of states, and one. Then the
table is symmetric, and a pair is marked exactly when some word over the alphabet leads exactly one
of the two states to a final one, reachable or not. Without a mark states are equivalent; these are
the classes that automata are minimized by. -/
theorem tableFilling_exact (d : DFA α) :
    d.tableFilling.sweeps ≤ d.states.choose 2 + 1 ∧
    (∀ p q, d.tableFilling.state.get p q = d.tableFilling.state.get q p) ∧
    (∀ p q, d.tableFilling.state.get p q = true ↔
      ∃ w, (∀ a ∈ w, a ∈ d.alphabet) ∧ Xor (w ∈ d.languageFrom p) (w ∈ d.languageFrom q)) ∧
    (Equivalence fun p q => d.tableFilling.state.get p q = false) ∧
    (∀ p q, d.tableFilling.state.get p q = d.distinguishable p q) ∧
    d.flat.fill? = some d.tableFilling.state.flat := by
  have hpairs := Marks.unmarkedPairs_le (Marks.scan d.differ (.filled d.states d.states false))
  refine ⟨Nat.le_trans Sweep.sweeps_settle_le (Nat.succ_le_succ hpairs), ?_, ?_, ?_,
    fun _ _ => get_tableFilling, ?_⟩
  · intro p q
    rw [get_tableFilling, get_tableFilling, distinguishable_comm]
  · intro p q
    rw [get_tableFilling, distinguishable_iff_exists_word]
  · simpa only [get_tableFilling] using d.equivalence_not_distinguishable
  · rw [state_tableFilling, fill?_flat]

end DFA

end LanguageTheory
