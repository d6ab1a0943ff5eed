import LanguageTheory.Proofs.NFA.Numbering
import LanguageTheory.Proofs.Regex.Compile

/-!
# Canonical automata

Minimal automata of one language have equally many states, and the numbering of subsets orders them
by least words. So determinizing and minimizing gives one value for each language over an alphabet,
whatever the automaton or the expression it starts from.
-/

namespace LanguageTheory

variable {α : Type} [TotalOrd α]

theorem DFA.eq_of_language_eq {d e : DFA α} (halphabet : e.alphabet = d.alphabet)
    (hlanguage : e.language = d.language) (hd : d.ShortlexNumbered) (hdreduced : d.Reduced)
    (he : e.ShortlexNumbered) (hereduced : e.Reduced) : d = e := by
  obtain ⟨hle, hiso⟩ :=
    states_le_and_exists_isIso hd.accessible hdreduced halphabet hlanguage
  obtain ⟨hge, _⟩ :=
    states_le_and_exists_isIso he.accessible hereduced halphabet.symm hlanguage.symm
  obtain ⟨f, hf⟩ := hiso (Nat.le_antisymm hge hle)
  exact eq_of_isIso hf hd he

/-- The minimal automaton of a determinized one depends on its language only. -/
theorem NFA.minimize_toDFA_eq_iff {m n : NFA α} (halphabet : m.alphabet = n.alphabet) :
    m.toDFA.minimize = n.toDFA.minimize ↔ m.language = n.language := by
  have hlanguage : ∀ n : NFA α, n.toDFA.minimize.language = n.language := by
    intro n
    rw [DFA.language_minimize, language_toDFA]
  constructor
  · intro h
    rw [← hlanguage, ← hlanguage, h]
  · intro h
    apply DFA.eq_of_language_eq halphabet.symm
    · rw [hlanguage, hlanguage, h]
    · exact m.shortlexNumbered_toDFA.minimize
    · exact m.toDFA.reduced_minimize
    · exact n.shortlexNumbered_toDFA.minimize
    · exact n.toDFA.reduced_minimize

/-- Determinizing and minimizing decides equality of languages, of automata over one alphabet and
of expressions alike. -/
theorem Regex.toMinimalDFA_canonical :
    (∀ m n : NFA α, m.alphabet = n.alphabet → (m.toDFA.minimize = n.toDFA.minimize ↔
      ∀ w, m.recognizes w = .ok true ↔ n.recognizes w = .ok true)) ∧
    ∀ (A : Alphabet α) (r s : Regex α), (∀ a ∈ r.symbols, a ∈ A) → (∀ a ∈ s.symbols, a ∈ A) →
      (r.toMinimalDFA A = s.toMinimalDFA A ↔ r.language = s.language) := by
  constructor
  · intro m n halphabet
    rw [NFA.minimize_toDFA_eq_iff halphabet]
    simp only [NFA.recognizes_eq_ok_true_iff]
    exact Language.ext_iff
  · intro A r s hr hs
    obtain ⟨m, hm, hmA, hmL⟩ := exists_toNFA hr
    obtain ⟨n, hn, hnA, hnL⟩ := exists_toNFA hs
    have hsame := NFA.minimize_toDFA_eq_iff (hmA.trans hnA.symm)
    rw [hmL, hnL] at hsame
    rw [← hsame, toMinimalDFA, toMinimalDFA, hm, hn, Except.map, Except.map, Except.ok.injEq]

theorem Regex.toMinimalDFA_canonical_star :
    (star (star (symbol 'a'))).toMinimalDFA {'a'} = (star (symbol 'a')).toMinimalDFA {'a'} ∧
      (symbol 'a').toMinimalDFA {'a'} ≠ (star (symbol 'a')).toMinimalDFA {'a'} ∧
        ∃ n, NFA.star (NFA.emptyLanguage {'a'}) = .ok n ∧
          n.toDFA.minimize = (NFA.emptyWord {'a'}).toDFA.minimize := by
  obtain ⟨hautomata, hexpressions⟩ := toMinimalDFA_canonical (α := Char)
  have hsymbols : ∀ a ∈ (symbol 'a').symbols, a ∈ ({'a'} : Alphabet Char) := by
    intro a ha
    rw [List.mem_singleton.mp ha]
    decide
  refine ⟨?_, ?_, ?_⟩
  · rw [hexpressions {'a'} (star (star (symbol 'a'))) (star (symbol 'a')) hsymbols hsymbols]
    exact kstar_idem _
  · rw [ne_eq, hexpressions {'a'} (symbol 'a') (star (symbol 'a')) hsymbols hsymbols]
    intro hsame
    have hempty : [] ∈ (symbol 'a').language := hsame ▸ Language.nil_mem_kstar _
    cases hempty
  · obtain ⟨n, hn, hstar⟩ := NFA.exists_star (NFA.emptyLanguage {'a'})
    refine ⟨n, hn, (hautomata n (NFA.emptyWord {'a'}) hstar.alphabet_eq).mpr ?_⟩
    intro w
    rw [NFA.recognizes_eq_ok_true_iff, NFA.recognizes_eq_ok_true_iff, hstar.language_eq,
      NFA.language_emptyLanguage, NFA.language_emptyWord, kstar_zero]

end LanguageTheory
