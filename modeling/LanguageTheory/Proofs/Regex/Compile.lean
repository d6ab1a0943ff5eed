import LanguageTheory.Regex.Compile
import LanguageTheory.Proofs.DFA.Minimize
import LanguageTheory.Proofs.NFA.Composition
import LanguageTheory.Proofs.NFA.Determinize
import LanguageTheory.Proofs.NFA.Primitives

/-!
# Words of compiled expressions

An expression denotes a language. It is compiled exactly when all its symbols are in the alphabet,
and then the automaton recognizes the words that the expression denotes; this holds for the minimal
deterministic automaton too.
-/

namespace LanguageTheory.Regex

variable {α : Type} {r : Regex α} {a : α} {w : List α}

/-! ## Denotation -/

/-- The language of an expression. -/
def language : Regex α → Language α
  | emptyLanguage => 0
  | emptyWord => 1
  | symbol a => {[a]}
  | concat first second => first.language * second.language
  | union left right => left.language + right.language
  | star item => KStar.kstar item.language

/-- An expression denotes the words that match it. -/
theorem mem_language_iff : w ∈ r.language ↔ r.Matches w := by
  induction r generalizing w with
  | emptyLanguage =>
      refine iff_of_false (Language.notMem_zero w) ?_
      intro h
      cases h
  | emptyWord =>
      rw [language, Language.mem_one]
      constructor
      · intro h
        subst h
        exact .emptyWord
      · intro h
        cases h
        rfl
  | symbol a =>
      constructor
      · intro h
        subst h
        exact .symbol a
      · intro h
        cases h
        rfl
  | concat first second ihfirst ihsecond =>
      rw [language, Language.mem_mul]
      constructor
      · rintro ⟨u, hu, v, hv, rfl⟩
        exact .concat (ihfirst.mp hu) (ihsecond.mp hv)
      · intro h
        cases h with
        | concat hu hv => exact ⟨_, ihfirst.mpr hu, _, ihsecond.mpr hv, rfl⟩
  | union left right ihleft ihright =>
      rw [language, Language.mem_add, ihleft, ihright]
      constructor
      · rintro (h | h)
        · exact .unionLeft h
        · exact .unionRight h
      · intro h
        cases h with
        | unionLeft h => exact .inl h
        | unionRight h => exact .inr h
  | star item ih =>
      rw [language, Language.mem_kstar]
      constructor
      · rintro ⟨words, rfl, hwords⟩
        induction words with
        | nil => exact .starNil
        | cons u words ihwords =>
            have hrest := ihwords fun v hv => hwords v (List.mem_cons_of_mem u hv)
            exact .starAppend (ih.mp (hwords u List.mem_cons_self)) hrest
      · intro h
        generalize hr : item.star = r at h
        induction h with
        | starNil => exact ⟨[], rfl, fun u hu => absurd hu List.not_mem_nil⟩
        | starAppend hu _ _ ihrest =>
            cases hr
            obtain ⟨words, rfl, hwords⟩ := ihrest rfl
            exact ⟨_ :: words, rfl, List.forall_mem_cons.mpr ⟨ih.mpr hu, hwords⟩⟩
        | _ => cases hr

/-! ## Compilation -/

variable [TotalOrd α] {A : Alphabet α}

theorem exists_toNFA (hr : ∀ a ∈ r.symbols, a ∈ A) :
    ∃ n, r.toNFA A = .ok n ∧ n.alphabet = A ∧ n.language = r.language := by
  induction r with
  | emptyLanguage => exact ⟨_, rfl, rfl, NFA.language_emptyLanguage⟩
  | emptyWord => exact ⟨_, rfl, rfl, NFA.language_emptyWord⟩
  | symbol a =>
      obtain ⟨n, hn, h⟩ := NFA.exists_symbol (hr a (List.mem_singleton_self a))
      exact ⟨n, hn, h.alphabet_eq, h.language_eq⟩
  | concat first second ihfirst ihsecond =>
      obtain ⟨m, hm, hmA, hmL⟩ := ihfirst fun a ha => hr a (List.mem_append_left _ ha)
      obtain ⟨n, hn, hnA, hnL⟩ := ihsecond fun a ha => hr a (List.mem_append_right _ ha)
      obtain ⟨c, hc, h⟩ := NFA.exists_concat (hnA.trans hmA.symm)
      refine ⟨c, ?_, h.alphabet_eq.trans hmA, ?_⟩
      · simp only [toNFA, hm, hn, bind, Except.bind, hc]
      · rw [h.language_eq, hmL, hnL, language]
  | union left right ihleft ihright =>
      obtain ⟨m, hm, hmA, hmL⟩ := ihleft fun a ha => hr a (List.mem_append_left _ ha)
      obtain ⟨n, hn, hnA, hnL⟩ := ihright fun a ha => hr a (List.mem_append_right _ ha)
      obtain ⟨c, hc, h⟩ := NFA.exists_union (hnA.trans hmA.symm)
      refine ⟨c, ?_, h.alphabet_eq.trans hmA, ?_⟩
      · simp only [toNFA, hm, hn, bind, Except.bind, hc]
      · rw [h.language_eq, hmL, hnL, language]
  | star item ih =>
      obtain ⟨n, hn, hnA, hnL⟩ := ih hr
      obtain ⟨c, hc, h⟩ := NFA.exists_star n
      refine ⟨c, ?_, h.alphabet_eq.trans hnA, ?_⟩
      · simp only [toNFA, hn, bind, Except.bind, hc]
      · rw [h.language_eq, hnL, language]

theorem find?_not_mem_eq_none_iff {l : List α} :
    l.find? (· ∉ A) = none ↔ ∀ a ∈ l, a ∈ A := by
  simp [List.find?_eq_none]

/-- The leftmost symbol of two expressions is that of the first one, if there is one. -/
theorem find?_append_eq_some {l m : List α} (h : (l ++ m).find? (· ∉ A) = some a) :
    l.find? (· ∉ A) = some a ∨ (∀ b ∈ l, b ∈ A) ∧ m.find? (· ∉ A) = some a := by
  rw [List.find?_append] at h
  cases hl : l.find? (· ∉ A) with
  | none =>
      rw [hl, Option.none_or] at h
      exact .inr ⟨find?_not_mem_eq_none_iff.mp hl, h⟩
  | some b =>
      rw [hl, Option.some_or] at h
      exact .inl h

/-- The leftmost symbol outside the alphabet is reported. -/
theorem toNFA_eq_error (hr : r.symbols.find? (· ∉ A) = some a) :
    r.toNFA A = .error (.unknownSymbol a) := by
  induction r with
  | emptyLanguage => cases hr
  | emptyWord => cases hr
  | symbol b =>
      have hb : b = a := List.mem_singleton.mp (List.mem_of_find?_eq_some hr) |>.symm
      have ha : a ∉ A := by simpa using List.find?_some hr
      subst hb
      exact NFA.symbol_of_not_mem ha
  | concat first second ihfirst ihsecond =>
      -- the second expression is compiled only when the first one has no fault
      rcases find?_append_eq_some hr with hfirst | ⟨hfirst, hsecond⟩
      · simp only [toNFA, ihfirst hfirst, bind, Except.bind]
      · obtain ⟨m, hm, _⟩ := exists_toNFA hfirst
        simp only [toNFA, hm, ihsecond hsecond, bind, Except.bind]
  | union left right ihleft ihright =>
      rcases find?_append_eq_some hr with hleft | ⟨hleft, hright⟩
      · simp only [toNFA, ihleft hleft, bind, Except.bind]
      · obtain ⟨m, hm, _⟩ := exists_toNFA hleft
        simp only [toNFA, hm, ihright hright, bind, Except.bind]
  | star item ih => simp only [toNFA, ih hr, bind, Except.bind]

/-- A way of compiling succeeds for expressions over the alphabet, reports the leftmost symbol
outside it otherwise, and its result recognizes the words of the expression. -/
structure CompiledBy {M : Type} (A : Alphabet α) (r : Regex α)
    (result : Except (AutomatonFault α) M)
    (recognizes : M → List α → Except (ForeignSymbol α) Bool) : Prop where
  ok_iff : (∃ m, result = .ok m) ↔ ∀ a ∈ r.symbols, a ∈ A
  error_iff : ∀ fault, result = .error fault ↔
    ∃ a, r.symbols.find? (· ∉ A) = some a ∧ fault = .unknownSymbol a
  recognizes_iff : ∀ m, result = .ok m → ∀ w, recognizes m w = .ok true ↔ w ∈ r.language

theorem compiledBy_of {M : Type} {result : Except (AutomatonFault α) M}
    {recognizes : M → List α → Except (ForeignSymbol α) Bool}
    (hok : (∀ a ∈ r.symbols, a ∈ A) → ∃ m, result = .ok m ∧
      ∀ w, recognizes m w = .ok true ↔ w ∈ r.language)
    (herror : ∀ a, r.symbols.find? (· ∉ A) = some a → result = .error (.unknownSymbol a)) :
    CompiledBy A r result recognizes := by
  cases hfind : r.symbols.find? (· ∉ A) with
  | none =>
      have hsymbols := find?_not_mem_eq_none_iff.mp hfind
      obtain ⟨m, rfl, hwords⟩ := hok hsymbols
      refine ⟨iff_of_true ⟨m, rfl⟩ hsymbols, ?_, ?_⟩
      · intro fault
        refine iff_of_false (fun h => by cases h) ?_
        rintro ⟨a, ha, _⟩
        rw [hfind] at ha
        cases ha
      · intro m' hm'
        cases hm'
        exact hwords
  | some a =>
      obtain rfl := herror a hfind
      refine ⟨iff_of_false ?_ ?_, ?_, ?_⟩
      · rintro ⟨m, hm⟩
        cases hm
      · intro hsymbols
        rw [find?_not_mem_eq_none_iff.mpr hsymbols] at hfind
        cases hfind
      · intro fault
        constructor
        · intro h
          cases h
          exact ⟨a, hfind, rfl⟩
        · rintro ⟨b, hb, rfl⟩
          rw [Option.some.inj (hfind.symm.trans hb)]
      · intro m hm
        cases hm

theorem exists_toMinimalDFA (hr : ∀ a ∈ r.symbols, a ∈ A) :
    ∃ d, r.toMinimalDFA A = .ok d ∧ d.alphabet = A ∧ d.language = r.language := by
  obtain ⟨n, hn, hnA, hnL⟩ := exists_toNFA hr
  refine ⟨n.toDFA.minimize, ?_, hnA, ?_⟩
  · rw [toMinimalDFA, hn]
    rfl
  · rw [DFA.language_minimize, NFA.language_toDFA, hnL]

/-- Compiling is exact, to either kind of automaton. -/
theorem compiledBy_toNFA_and_toMinimalDFA (A : Alphabet α) (r : Regex α) :
    CompiledBy A r (r.toNFA A) NFA.recognizes ∧
      CompiledBy A r (r.toMinimalDFA A) DFA.recognizes := by
  constructor
  · apply compiledBy_of
    · intro hr
      obtain ⟨n, hn, _, hlanguage⟩ := exists_toNFA hr
      refine ⟨n, hn, ?_⟩
      intro w
      rw [NFA.recognizes_eq_ok_true_iff, hlanguage]
    · intro a ha
      exact toNFA_eq_error ha
  · apply compiledBy_of
    · intro hr
      obtain ⟨d, hd, _, hlanguage⟩ := exists_toMinimalDFA hr
      refine ⟨d, hd, ?_⟩
      intro w
      rw [DFA.recognizes_eq_ok_true_iff, hlanguage]
    · intro a ha
      rw [toMinimalDFA, toNFA_eq_error ha]
      rfl

end LanguageTheory.Regex
