import LanguageTheory.Proofs.DFA.Minimize
import Mathlib.Data.Fintype.EquivFin

/-!
# Optimality of minimal automata

An accessible and reduced automaton has a state for each left quotient of its language. Any other
automaton for the same words has states for the same quotients, so that it has as many states at
least, and with equally many it differs only in their numbers.
-/

namespace LanguageTheory.DFA

variable {α : Type} [TotalOrd α] {d e : DFA α}

/-- A bijection of states that keeps the initial state, all transitions and finality. -/
structure IsIso (f : d.State ≃ e.State) : Prop where
  map_start : f d.start = e.start
  transition?_map : ∀ p symbol, e.transition? (f p) symbol = (d.transition? p symbol).map f
  isFinal_map : ∀ p, e.isFinal (f p) = d.isFinal p

/-- Automata with the same words have states with the same languages. -/
theorem exists_languageFrom_eq (hd : d.Accessible) (halphabet : e.alphabet = d.alphabet)
    (hlanguage : e.language = d.language) (p : d.State) :
    ∃ q, e.languageFrom q = d.languageFrom p := by
  -- what follows a word is the left quotient of the language, in either automaton
  obtain ⟨u, hreaches⟩ := hd.exists_reaches p
  obtain ⟨q, hq⟩ := exists_reaches (d := e) fun a ha => halphabet ▸ hreaches.mem_alphabet a ha
  refine ⟨q, ?_⟩
  ext w
  rw [hq.mem_languageFrom_iff, hreaches.mem_languageFrom_iff, hlanguage]

/-- Where languages are kept, transitions are: the targets have the words that go on after a symbol. -/
theorem transition?_map_of_languageFrom_eq {f : d.State → e.State} {p : d.State} {a : α}
    (he : e.Reduced) (halphabet : e.alphabet = d.alphabet)
    (hp : e.languageFrom (f p) = d.languageFrom p)
    (htarget : ∀ q, d.transition? p a = some q → e.languageFrom (f q) = d.languageFrom q) :
    e.transition? (f p) a = (d.transition? p a).map f := by
  cases hd : d.transition? p a with
  | none =>
      rw [transition?_eq_none_iff] at hd
      rw [Option.map_none, transition?_eq_none_iff, halphabet]
      exact hd
  | some q =>
      cases hother : e.transition? (f p) a with
      | none =>
          rw [transition?_eq_none_iff, halphabet, ← transition?_eq_none_iff (p := p)] at hother
          rw [hd] at hother
          cases hother
      | some r =>
          rw [Option.map_some, Option.some.injEq]
          apply he
          ext w
          rw [mem_languageFrom_of_transition? hother, htarget q hd, hp,
            mem_languageFrom_of_transition? hd]

/-- A bijection that keeps the languages of states keeps all of the automaton. -/
theorem isIso_of_languageFrom_eq {f : d.State ≃ e.State} (hd : d.Reduced)
    (halphabet : e.alphabet = d.alphabet) (hlanguage : e.language = d.language)
    (hf : ∀ p, e.languageFrom (f p) = d.languageFrom p) : IsIso f := by
  have he : e.Reduced := by
    intro q r hqr
    obtain ⟨p, rfl⟩ := f.surjective q
    obtain ⟨p', rfl⟩ := f.surjective r
    rw [hf, hf] at hqr
    exact congrArg f (hd hqr)
  constructor
  · apply he
    rw [hf]
    exact hlanguage.symm
  · intro p a
    exact transition?_map_of_languageFrom_eq he halphabet (hf p) fun q _ => hf q
  · intro p
    exact isFinal_eq_of_languageFrom_eq (hf p)

theorem states_le_and_exists_isIso (hd : d.Accessible) (hreduced : d.Reduced)
    (halphabet : e.alphabet = d.alphabet) (hlanguage : e.language = d.language) :
    d.states ≤ e.states ∧ (e.states = d.states → ∃ f : d.State ≃ e.State, IsIso f) := by
  choose f hf using exists_languageFrom_eq hd halphabet hlanguage
  -- different states of `d` have different languages, so different states of `e` answer to them
  have hinj : Function.Injective f := by
    intro p q hpq
    apply hreduced
    rw [← hf, ← hf, hpq]
  constructor
  · have hcard := Fintype.card_le_of_injective f hinj
    rwa [Fintype.card_fin, Fintype.card_fin] at hcard
  · intro hstates
    have hbijective : Function.Bijective f := by
      rw [Fintype.bijective_iff_injective_and_card]
      exact ⟨hinj, by rw [Fintype.card_fin, Fintype.card_fin, hstates]⟩
    exact ⟨Equiv.ofBijective f hbijective,
      isIso_of_languageFrom_eq hreduced halphabet hlanguage hf⟩

/-- The minimal automaton answers as before, no automaton for its words is smaller, and one that is
as small is a renumbering of it. -/
theorem minimize_optimal (d : DFA α) : (∀ w, d.minimize.recognizes w = d.recognizes w) ∧
    ∀ e : DFA α, e.alphabet = d.alphabet →
      (∀ w, e.recognizes w = .ok true ↔ d.recognizes w = .ok true) →
      d.minimize.states ≤ e.states ∧
        (e.states = d.minimize.states → ∃ f : d.minimize.State ≃ e.State, IsIso f) := by
  constructor
  · intro w
    exact recognizes_eq_of_language_eq d.alphabet_minimize d.language_minimize
  · intro e halphabet hwords
    have hlanguage : e.language = d.minimize.language := by
      ext w
      rw [language_minimize, ← recognizes_eq_ok_true_iff, ← recognizes_eq_ok_true_iff]
      exact hwords w
    exact states_le_and_exists_isIso d.accessible_minimize d.reduced_minimize halphabet hlanguage

/-- Recognizes all words, and turns round in a circle of `n + 1` states. -/
def circle (n : Nat) : DFA Char :=
  ofFn {'a'} (n + 1) n.succ_pos (fun p _ => p + 1) fun _ => true

theorem recognizes_circle (m n : Nat) (w : List Char) :
    (circle m).recognizes w = .ok true ↔ (circle n).recognizes w = .ok true := by
  have htest : ∀ k p, (circle k).isFinal p = true := by
    intro k p
    exact isFinal_ofFn p
  simp only [recognizes, htest]
  exact Iff.rfl

theorem minimize_optimal_circle : (circle 2).minimize.states = 1 ∧
    ∃ f : (circle 2).minimize.State ≃ (circle 0).State, IsIso f := by
  obtain ⟨hle, hiso⟩ := (minimize_optimal (circle 2)).2 (circle 0) rfl (recognizes_circle 0 2)
  have hone : (circle 2).minimize.states = 1 :=
    Nat.le_antisymm hle (circle 2).minimize.states_pos
  exact ⟨hone, hiso hone.symm⟩

end LanguageTheory.DFA
