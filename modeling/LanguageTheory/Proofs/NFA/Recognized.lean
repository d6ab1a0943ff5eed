import LanguageTheory.Proofs.NFA.Composition

/-!
# What compositions recognize

Automata are composed exactly when they share an alphabet, and then the composition recognizes the
product, the union or the star of what its operands recognize (`compositions_exact`). Nothing else is
asked of the operands: they may have any number of final states, come back to their initial state,
end there, or go around in circles of epsilon edges.
-/

namespace LanguageTheory.NFA

variable {α : Type} [TotalOrd α] {first second left right : NFA α} {words : Language α}
  {result : Except (AutomatonFault α) (NFA α)}

open Draft

/-- The words that an automaton recognizes. -/
def recognized (n : NFA α) : Language α := {w | n.recognizes w = .ok true}

theorem mem_recognized_iff {n : NFA α} {w : List α} :
    w ∈ n.recognized ↔ n.recognizes w = .ok true :=
  Iff.rfl

theorem recognized_eq_language (n : NFA α) : n.recognized = n.language := by
  ext w
  rw [mem_recognized_iff, recognizes_eq_ok_true_iff]

/-! ## Operands over different alphabets -/

theorem splice_of_alphabet_ne {b other : Draft α} (h : other.alphabet ≠ b.alphabet) :
    b.splice other = .error .alphabetMismatch :=
  if_neg h

theorem concat_of_alphabet_ne (h : first.alphabet ≠ second.alphabet) :
    concat first second = .error .alphabetMismatch := by
  obtain ⟨one, hone, honeA, _⟩ := exists_splice (empty first.alphabet) first.toDraft rfl
  have hother : second.alphabet ≠ one.alphabet := by
    rw [honeA]
    exact h.symm
  simp only [concat, hone, splice_of_alphabet_ne hother, bind, Except.bind]

theorem union_of_alphabet_ne (h : left.alphabet ≠ right.alphabet) :
    union left right = .error .alphabetMismatch := by
  obtain ⟨one, hone, honeA, _⟩ := exists_splice (empty left.alphabet).addState left.toDraft rfl
  have hother : right.alphabet ≠ one.alphabet := by
    rw [honeA]
    exact h.symm
  simp only [union, hone, splice_of_alphabet_ne hother, bind, Except.bind]

/-! ## Compositions -/

/-- A way to compose two automata: it succeeds for operands over one alphabet and refuses all others,
and what it makes is an automaton over that alphabet that recognizes the given words. -/
structure Composes (left right : NFA α) (result : Except (AutomatonFault α) (NFA α))
    (words : Language α) : Prop where
  ok_iff : (∃ n, result = .ok n) ↔ left.alphabet = right.alphabet
  error_iff : ∀ fault, result = .error fault ↔
    left.alphabet ≠ right.alphabet ∧ fault = .alphabetMismatch
  alphabet_eq : ∀ n, result = .ok n → n.alphabet = left.alphabet
  recognized_eq : ∀ n, result = .ok n → n.recognized = words

theorem composes_of
    (hok : left.alphabet = right.alphabet →
      ∃ n, result = .ok n ∧ n.alphabet = left.alphabet ∧ n.recognized = words)
    (herror : left.alphabet ≠ right.alphabet → result = .error .alphabetMismatch) :
    Composes left right result words := by
  by_cases halphabet : left.alphabet = right.alphabet
  · obtain ⟨n, rfl, hnA, hnW⟩ := hok halphabet
    refine ⟨iff_of_true ⟨n, rfl⟩ halphabet, ?_, ?_, ?_⟩
    · intro fault
      refine iff_of_false (fun h => by cases h) ?_
      intro h
      exact h.1 halphabet
    · intro m hm
      cases hm
      exact hnA
    · intro m hm
      cases hm
      exact hnW
  · obtain rfl := herror halphabet
    refine ⟨iff_of_false ?_ halphabet, ?_, ?_, ?_⟩
    · rintro ⟨n, hn⟩
      cases hn
    · intro fault
      rw [Except.error.injEq, and_iff_right halphabet, eq_comm]
    · intro n hn
      cases hn
    · intro n hn
      cases hn

theorem composes_concat (first second : NFA α) :
    Composes first second (concat first second) (first.recognized * second.recognized) := by
  apply composes_of
  · intro halphabet
    obtain ⟨n, hn, hproduct⟩ := exists_concat halphabet.symm
    refine ⟨n, hn, hproduct.alphabet_eq, ?_⟩
    simp only [recognized_eq_language, hproduct.language_eq]
  · exact concat_of_alphabet_ne

theorem composes_union (left right : NFA α) :
    Composes left right (union left right) (left.recognized + right.recognized) := by
  apply composes_of
  · intro halphabet
    obtain ⟨n, hn, hsum⟩ := exists_union halphabet.symm
    refine ⟨n, hn, hsum.alphabet_eq, ?_⟩
    simp only [recognized_eq_language, hsum.language_eq]
  · exact union_of_alphabet_ne

/-- Product and union of any two automata over one alphabet and the star of any automaton recognize
the product, the union and the star of the words, and there is no other reason to refuse operands
than that their alphabets differ. -/
theorem compositions_exact :
    (∀ first second : NFA α,
      Composes first second (concat first second) (first.recognized * second.recognized)) ∧
    (∀ left right : NFA α,
      Composes left right (union left right) (left.recognized + right.recognized)) ∧
    ∀ item : NFA α, ∃ n, star item = .ok n ∧ n.alphabet = item.alphabet ∧
      n.recognized = KStar.kstar item.recognized := by
  refine ⟨composes_concat, composes_union, ?_⟩
  intro item
  obtain ⟨n, hn, hstar⟩ := exists_star item
  refine ⟨n, hn, hstar.alphabet_eq, ?_⟩
  simp only [recognized_eq_language, hstar.language_eq]

/-- Two final states in a circle of epsilon edges, and an edge that leads back to the initial one. -/
def circling : NFA Char where
  toDraft := (Draft.empty {'a'}).addStates 2
    |>.insertEdge (1 : Fin 2) (0 : Fin 1) (0 : Fin 2)
    |>.insertEpsilon (0 : Fin 2) (1 : Fin 2)
    |>.insertEpsilon (1 : Fin 2) (0 : Fin 2)
    |>.insertFinal (0 : Fin 2)
    |>.insertFinal (1 : Fin 2)
  states_pos := Nat.two_pos

theorem compositions_exact_circling :
    (∃ n, concat circling circling = .ok n ∧ n.recognizes ['a', 'a'] = .ok true) ∧
      union circling (emptyWord {'b'}) = .error .alphabetMismatch ∧
        ∃ n, star circling = .ok n ∧ n.recognizes [] = .ok true := by
  obtain ⟨hconcat, hunion, hstar⟩ := compositions_exact (α := Char)
  have hsilent : 1 ∈ circling.epsilonTargets 0 := by decide
  have hread : 0 ∈ circling.targets 1 0 := by decide
  have hback : circling.Edge 1 (some 'a') 0 := ⟨(0 : Fin 1), rfl, hread⟩
  have hword : ['a'] ∈ circling.recognized := by
    rw [recognized_eq_language]
    exact ⟨0, by decide, .epsilon hsilent (.cons hback .nil)⟩
  refine ⟨?_, ?_, ?_⟩
  · have hcomposes := hconcat circling circling
    obtain ⟨n, hn⟩ := hcomposes.ok_iff.mpr rfl
    refine ⟨n, hn, ?_⟩
    rw [← mem_recognized_iff, hcomposes.recognized_eq n hn]
    exact Language.append_mem_mul hword hword
  · exact ((hunion circling (emptyWord {'b'})).error_iff _).mpr ⟨by decide, rfl⟩
  · obtain ⟨n, hn, _, hwords⟩ := hstar circling
    refine ⟨n, hn, ?_⟩
    rw [← mem_recognized_iff, hwords]
    exact Language.nil_mem_kstar _

end LanguageTheory.NFA
