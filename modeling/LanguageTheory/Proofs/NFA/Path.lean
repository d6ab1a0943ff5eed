import LanguageTheory.NFA.Recognition
import LanguageTheory.Proofs.Encoding
import Mathlib.Computability.Language
import Mathlib.Order.CompletePartialOrder

/-!
# Paths and their words

A path follows edges, each labelled by a symbol or by nothing, and spells a word. The language of a
state is the words that paths from it to final states spell. A word is recognized when it is in the
language of the initial state (`recognizes_eq_ok_true_iff`).
-/

namespace LanguageTheory.NFA

variable {α : Type} [TotalOrd α] {u v w : List α} {label : Option α} {p q r : Nat}

namespace Draft

variable {b c : Draft α}

/-- An edge with its label; an epsilon edge has none. -/
def Edge (b : Draft α) (p : Nat) (label : Option α) (q : Nat) : Prop :=
  match label with
  | none => q ∈ b.epsilonTargets p
  | some a => ∃ letter : Alphabet.Letter b.alphabet,
      b.alphabet.get letter = a ∧ q ∈ b.targets p letter

theorem targets_of_le {letter : Nat} (hp : b.states ≤ p) : b.targets p letter = ∅ := by
  rw [targets, Table.get?, dif_neg (by omega), Option.getD_none]

theorem epsilonTargets_of_le (hp : b.states ≤ p) : b.epsilonTargets p = ∅ := by
  rw [epsilonTargets, Vector.getElem?_eq_none hp, Option.getD_none]

theorem Edge.target_lt (h : b.Edge p label q) : q < b.states := by
  cases label with
  | none => exact lt_of_mem_epsilonTargets h
  | some a =>
      obtain ⟨letter, _, hq⟩ := h
      exact lt_of_mem_targets hq

theorem Edge.source_lt (h : b.Edge p label q) : p < b.states := by
  apply Nat.lt_of_not_le
  intro hle
  cases label with
  | none =>
      rw [Edge, epsilonTargets_of_le hle] at h
      exact SortedSet.not_mem_empty q h
  | some a =>
      obtain ⟨letter, _, hq⟩ := h
      rw [targets_of_le hle] at hq
      exact SortedSet.not_mem_empty q hq

/-- A path that spells a word. -/
inductive Path (b : Draft α) : Nat → List α → Nat → Prop
  | nil {p : Nat} : Path b p [] p
  | cons {p q r : Nat} {label : Option α} {w : List α} :
      b.Edge p label q → Path b q w r → Path b p (label.toList ++ w) r

namespace Path

theorem append (huv : b.Path p u q) (hvw : b.Path q v r) : b.Path p (u ++ v) r := by
  induction huv with
  | nil => exact hvw
  | cons hedge _ ih =>
      rw [List.append_assoc]
      exact .cons hedge (ih hvw)

theorem epsilon (hedge : b.Edge p none q) (h : b.Path q w r) : b.Path p w r := .cons hedge h

/-- Where edges go over to edges, paths go over to paths. -/
theorem map {f : Nat → Nat} (hf : ∀ p label q, b.Edge p label q → c.Edge (f p) label (f q))
    (h : b.Path p w q) : c.Path (f p) w (f q) := by
  induction h with
  | nil => exact .nil
  | cons hedge _ ih => exact .cons (hf _ _ _ hedge) ih

end Path

/-- The words that are spelt on the way from a state to a final state. -/
def languageFrom (b : Draft α) (p : Nat) : Language α := {w | ∃ q ∈ b.finals, b.Path p w q}

/-- The languages of the states are the least ones that have the empty word at final states and
are closed under going back along edges. -/
theorem languageFrom_le {bound : Nat → Language α} (hfinal : ∀ q ∈ b.finals, [] ∈ bound q)
    (hedge : ∀ p label q, b.Edge p label q → ∀ w ∈ bound q, label.toList ++ w ∈ bound p) :
    b.languageFrom p ≤ bound p := by
  rintro w ⟨q, hq, hpath⟩
  induction hpath with
  | nil => exact hfinal _ hq
  | cons hfirst _ ih => exact hedge _ _ _ hfirst _ (ih hq)

theorem append_mem_languageFrom_of_edge (hedge : b.Edge p label q) (hw : w ∈ b.languageFrom q) :
    label.toList ++ w ∈ b.languageFrom p := by
  obtain ⟨r, hr, hpath⟩ := hw
  exact ⟨r, hr, .cons hedge hpath⟩

/-- Words that end with one of `rest` stay such words on the way back along an edge. -/
theorem append_mem_languageFrom_mul {rest : Language α} (hedge : b.Edge p label q)
    (hw : w ∈ b.languageFrom q * rest) : label.toList ++ w ∈ b.languageFrom p * rest := by
  obtain ⟨u, hu, v, hv, rfl⟩ := Language.mem_mul.mp hw
  rw [← List.append_assoc]
  exact Language.append_mem_mul (append_mem_languageFrom_of_edge hedge hu) hv

theorem mem_languageFrom_mul_of_final {rest : Language α} (hp : p ∈ b.finals) (hw : w ∈ rest) :
    w ∈ b.languageFrom p * rest :=
  Language.append_mem_mul (a := []) ⟨p, hp, .nil⟩ hw

end Draft

/-! ## Recognition -/

section Recognition

variable {n : NFA α} {states : SortedSet Nat} {letters : List (Alphabet.Letter n.alphabet)}

theorem path_of_linked (h : Linked (fun p q => q ∈ n.epsilonTargets p) p q) : n.Path p [] q := by
  induction h with
  | refl => exact .nil
  | tail _ hstep ih =>
      have hlast : n.Path _ [] _ := .epsilon hstep .nil
      exact ih.append hlast

theorem exists_linked_of_path_nil (h : n.Path p [] q) :
    Linked (fun p q => q ∈ n.epsilonTargets p) p q := by
  generalize hw : ([] : List α) = w at h
  induction h with
  | nil => exact .refl
  | @cons p q r label w hedge _ ih =>
      cases label with
      | none => exact .head hedge (ih hw)
      | some a => cases hw

/-- The first symbol is read after some epsilon edges. -/
theorem exists_edge_of_path_cons {a : α} (h : n.Path p (a :: w) r) :
    ∃ s t, Linked (fun p q => q ∈ n.epsilonTargets p) p s ∧ n.Edge s (some a) t ∧ n.Path t w r := by
  generalize hword : a :: w = word at h
  induction h with
  | nil => cases hword
  | @cons p q r label rest hedge hpath ih =>
      cases label with
      | none =>
          obtain ⟨s, t, hlinked, hsymbol, hrest⟩ := ih hword
          exact ⟨s, t, .head hedge hlinked, hsymbol, hrest⟩
      | some b =>
          obtain ⟨rfl, rfl⟩ := List.cons.inj hword
          exact ⟨p, q, .refl, hedge, hpath⟩

/-- A closed set is advanced to the states that paths over the word lead to. -/
theorem mem_run_closure : q ∈ n.run (n.closure states) letters ↔
    ∃ p ∈ states, n.Path p (Alphabet.decode n.alphabet letters) q := by
  induction letters generalizing states with
  | nil =>
      rw [run, List.foldl_nil, mem_closure]
      constructor
      · intro h
        rcases h with ⟨p, hp, hlinked⟩
        exact ⟨p, hp, path_of_linked hlinked⟩
      · intro h
        rcases h with ⟨p, hp, hpath⟩
        exact ⟨p, hp, exists_linked_of_path_nil hpath⟩
  | cons letter letters ih =>
      have hrun : n.run (n.closure states) (letter :: letters) =
          n.run (n.closure ((n.closure states).bind fun p => n.targets p letter)) letters := rfl
      -- the closure after a letter is taken before the next one, so any start set is allowed for
      rw [hrun, ih]
      constructor
      · intro h
        rcases h with ⟨t, ht, hpath⟩
        obtain ⟨s, hs, htarget⟩ := SortedSet.mem_bind.mp ht
        obtain ⟨p, hp, hlinked⟩ := mem_closure.mp hs
        have hedge : n.Edge s (some (n.alphabet.get letter)) t := ⟨letter, rfl, htarget⟩
        exact ⟨p, hp, (path_of_linked hlinked).append (.cons hedge hpath)⟩
      · intro h
        rcases h with ⟨p, hp, hpath⟩
        obtain ⟨s, t, hlinked, ⟨other, hother, htarget⟩, hrest⟩ := exists_edge_of_path_cons hpath
        obtain rfl := SortedSet.get_inj hother
        exact ⟨t, SortedSet.mem_bind.mpr ⟨s, mem_closure.mpr ⟨p, hp, hlinked⟩, htarget⟩, hrest⟩

/-- The states after some letters are those that paths over the word lead to. -/
theorem mem_run_initial_iff :
    q ∈ n.run n.initial letters ↔ n.Path 0 (Alphabet.decode n.alphabet letters) q := by
  rw [initial, mem_run_closure]
  constructor
  · intro h
    rcases h with ⟨p, hp, hpath⟩
    obtain rfl := SortedSet.mem_singleton.mp hp
    exact hpath
  · intro hpath
    exact ⟨0, SortedSet.mem_singleton.mpr rfl, hpath⟩

/-- The words of an automaton are those of its initial state. -/
def language (n : NFA α) : Language α := n.languageFrom 0

theorem meets_run_iff : (n.run n.initial letters).meets n.finals ↔
    Alphabet.decode n.alphabet letters ∈ n.language := by
  rw [SortedSet.meets_iff]
  constructor
  · intro h
    rcases h with ⟨q, hq, hfinal⟩
    exact ⟨q, hfinal, mem_run_initial_iff.mp hq⟩
  · intro h
    rcases h with ⟨q, hfinal, hpath⟩
    exact ⟨q, mem_run_initial_iff.mpr hpath, hfinal⟩

theorem exists_decode_of_path (h : n.Path p w q) :
    ∃ letters, Alphabet.decode n.alphabet letters = w := by
  induction h with
  | nil => exact ⟨[], rfl⟩
  | @cons p q r label w hedge _ ih =>
      obtain ⟨letters, rfl⟩ := ih
      cases label with
      | none => exact ⟨letters, rfl⟩
      | some a =>
          obtain ⟨letter, rfl, _⟩ := hedge
          exact ⟨letter :: letters, rfl⟩

theorem recognizes_eq_ok_true_iff : n.recognizes w = .ok true ↔ w ∈ n.language := by
  rw [recognizes, Alphabet.map_encode_eq_ok_iff]
  constructor
  · intro h
    rcases h with ⟨letters, rfl, hmeets⟩
    exact meets_run_iff.mp hmeets
  · intro hw
    obtain ⟨q, _, hpath⟩ := id hw
    obtain ⟨letters, rfl⟩ := exists_decode_of_path hpath
    exact ⟨letters, rfl, meets_run_iff.mpr hw⟩

end Recognition

end LanguageTheory.NFA
