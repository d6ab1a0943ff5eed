import LanguageTheory.Proofs.NFA.Edges

/-!
# Languages of primitive automata

The automata of the empty language, of the empty word and of one symbol. The last one exists for the
symbols of the alphabet only.
-/

namespace LanguageTheory.NFA

variable {α : Type} [TotalOrd α] {A : Alphabet α} {a : α} {n : NFA α}

open Draft

theorem language_emptyLanguage : (emptyLanguage A).language = 0 := by
  ext w
  refine iff_of_false ?_ (Language.notMem_zero w)
  rintro ⟨q, hq, _⟩
  exact SortedSet.not_mem_empty q hq

theorem language_emptyWord : (emptyWord A).language = 1 := by
  have hedge : ∀ p label q, ¬ (emptyWord A).Edge p label q := by
    intro p label q h
    exact not_edge_empty (edge_addState_iff.mp (edge_insertFinal_iff.mp h))
  ext w
  rw [Language.mem_one]
  constructor
  · rintro ⟨q, _, hpath⟩
    cases hpath with
    | nil => rfl
    | cons hfirst _ => exact absurd hfirst (hedge _ _ _)
  · intro h
    subst h
    exact ⟨0, SortedSet.mem_insert.mpr (.inl rfl), .nil⟩

/-- One edge on a symbol, to the only final state. -/
structure IsSymbol (n : NFA α) (A : Alphabet α) (a : α) : Prop where
  alphabet_eq : n.alphabet = A
  edge_iff : ∀ p label q, n.Edge p label q ↔ label = some a ∧ p = 0 ∧ q = 1
  mem_finals_iff : ∀ p, p ∈ n.finals ↔ p = 1

theorem exists_symbol (ha : a ∈ A) : ∃ n, symbol A a = .ok n ∧ n.IsSymbol A a := by
  have hpair : ((empty A).addStates 2).states = 2 := rfl
  have hnone : ∀ p label q, ¬ ((empty A).addStates 2).Edge p label q := by
    intro p label q h
    exact not_edge_empty (edge_addState_iff.mp (edge_addState_iff.mp h))
  obtain ⟨joined, hjoined, hjoinedA, hjoinedN, hjoinedF, hjoinedE⟩ :=
    exists_addTransition (b := (empty A).addStates 2) (p := 0) (a := a) (q := 1) (by omega) ha
      (by omega)
  obtain ⟨marked, hmarked, hmarkedX⟩ := exists_markFinal (b := joined) (p := 1) (by omega)
  have hbuild : 0 < marked.states := by
    rw [hmarkedX.states_eq]
    omega
  refine ⟨{ marked with states_pos := hbuild }, ?_, ?_, ?_, ?_⟩
  · simp only [symbol, hjoined, hmarked, bind, Except.bind, build, dif_pos hbuild]
  · exact hmarkedX.alphabet_eq.trans hjoinedA
  · intro p label q
    rw [hmarkedX.edge_iff, hjoinedE]
    simp [hnone]
  · intro p
    have hempty : joined.finals = ∅ := hjoinedF
    rw [hmarkedX.mem_finals_iff, hempty]
    simp

theorem symbol_of_not_mem (ha : a ∉ A) : symbol A a = .error (.unknownSymbol a) := by
  have hadd := addTransition_of_not_mem (b := (empty A).addStates 2) (p := 0) (q := 1)
    Nat.two_pos ha Nat.one_lt_two
  simp only [symbol, hadd, bind, Except.bind]

theorem IsSymbol.language_eq (h : n.IsSymbol A a) : n.language = {[a]} := by
  ext w
  constructor
  · rintro ⟨q, hq, hpath⟩
    obtain rfl := (h.mem_finals_iff q).mp hq
    cases hpath with
    | cons hfirst hrest =>
        obtain ⟨rfl, _, rfl⟩ := (h.edge_iff _ _ _).mp hfirst
        cases hrest with
        | nil => rfl
        | cons hsecond _ => cases ((h.edge_iff _ _ _).mp hsecond).2.1
  · intro h
    subst h
    exact ⟨1, (h.mem_finals_iff 1).mpr rfl, .cons ((h.edge_iff _ _ _).mpr ⟨rfl, rfl, rfl⟩) .nil⟩

end LanguageTheory.NFA
