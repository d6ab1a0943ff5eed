import LanguageTheory.DFA.Basic
import LanguageTheory.Proofs.Encoding
import Mathlib.Computability.Language

/-!
# Languages of states

The language of a state are the words that lead from it to a final state. What leads on from a state
after some letters is the left quotient of its language (`mem_languageFrom_run`).
-/

namespace LanguageTheory.DFA

variable {α : Type} [TotalOrd α] {d : DFA α} {p : d.State} {w : List α}

/-- The words that lead from a state to a final one. -/
def languageFrom (d : DFA α) (p : d.State) : Language α :=
  {w | ∃ letters, Alphabet.decode d.alphabet letters = w ∧ d.isFinal (d.run p letters)}

/-- The words of an automaton are those of its initial state. -/
def language (d : DFA α) : Language α := d.languageFrom d.start

theorem decode_mem_languageFrom_iff (letters : List d.Letter) :
    Alphabet.decode d.alphabet letters ∈ d.languageFrom p ↔ d.isFinal (d.run p letters) := by
  constructor
  · rintro ⟨others, hdecode, hfinal⟩
    rw [Alphabet.decode_inj hdecode] at hfinal
    exact hfinal
  · intro hfinal
    exact ⟨letters, rfl, hfinal⟩

/-- What leads on after some letters are the words that begin with them. -/
theorem mem_languageFrom_run (letters : List d.Letter) :
    w ∈ d.languageFrom (d.run p letters) ↔
      Alphabet.decode d.alphabet letters ++ w ∈ d.languageFrom p := by
  constructor
  · rintro ⟨others, rfl, hfinal⟩
    refine ⟨letters ++ others, List.map_append, ?_⟩
    rwa [run_append]
  · rintro ⟨others, hdecode, hfinal⟩
    obtain ⟨first, second, rfl, hfirst, rfl⟩ := List.map_eq_append_iff.mp hdecode
    rw [Alphabet.decode_inj hfirst, run_append] at hfinal
    exact ⟨second, rfl, hfinal⟩

theorem nil_mem_languageFrom_iff : [] ∈ d.languageFrom p ↔ d.isFinal p :=
  decode_mem_languageFrom_iff []

/-- States with the same words are final or not alike. -/
theorem isFinal_eq_of_languageFrom_eq {e : DFA α} {q : e.State}
    (h : e.languageFrom q = d.languageFrom p) : e.isFinal q = d.isFinal p := by
  rw [Bool.eq_iff_iff, ← nil_mem_languageFrom_iff, ← nil_mem_languageFrom_iff, h]

/-! ## Reading words -/

/-- The word leads from the initial state to the given one. -/
def Reaches (d : DFA α) (w : List α) (p : d.State) : Prop :=
  ∃ letters, Alphabet.decode d.alphabet letters = w ∧ d.run d.start letters = p

theorem Reaches.mem_alphabet (h : d.Reaches w p) : ∀ a ∈ w, a ∈ d.alphabet := by
  obtain ⟨letters, hletters, _⟩ := h
  exact Alphabet.exists_decode_iff.mp ⟨letters, hletters⟩

theorem Reaches.unique {q : d.State} (hp : d.Reaches w p) (hq : d.Reaches w q) : p = q := by
  obtain ⟨letters, rfl, rfl⟩ := hp
  obtain ⟨others, hdecode, rfl⟩ := hq
  rw [Alphabet.decode_inj hdecode]

theorem exists_reaches (hw : ∀ a ∈ w, a ∈ d.alphabet) : ∃ p, d.Reaches w p := by
  obtain ⟨letters, hletters⟩ := Alphabet.exists_decode_iff.mpr hw
  exact ⟨_, letters, hletters, rfl⟩

theorem Reaches.mem_languageFrom_iff {u : List α} (h : d.Reaches u p) :
    w ∈ d.languageFrom p ↔ u ++ w ∈ d.language := by
  obtain ⟨letters, rfl, rfl⟩ := h
  exact mem_languageFrom_run letters

theorem mem_language_iff : w ∈ d.language ↔ ∃ p, d.Reaches w p ∧ d.isFinal p := by
  constructor
  · rintro ⟨letters, hletters, hfinal⟩
    exact ⟨_, ⟨letters, hletters, rfl⟩, hfinal⟩
  · rintro ⟨_, ⟨letters, hletters, rfl⟩, hfinal⟩
    exact ⟨letters, hletters, hfinal⟩

theorem transition?_eq_some_iff {a : α} {q : d.State} :
    d.transition? p a = some q ↔ ∃ letter, d.alphabet.get letter = a ∧ d.next p letter = q := by
  unfold transition?
  constructor
  · intro h
    split at h
    next => cases h
    next letter hletter =>
      rw [dif_pos p.2] at h
      exact ⟨letter, SortedSet.rank?_eq_some_iff.mp hletter, Option.some.inj h⟩
  · rintro ⟨letter, hletter, rfl⟩
    rw [SortedSet.rank?_eq_some_iff.mpr hletter]
    exact dif_pos p.2

theorem transition?_eq_none_iff {a : α} : d.transition? p a = none ↔ a ∉ d.alphabet := by
  rw [← SortedSet.rank?_eq_none_iff]
  unfold transition?
  cases d.alphabet.rank? a with
  | none => simp
  | some letter => simp

theorem mem_languageFrom_of_transition? {a : α} {q : d.State} (h : d.transition? p a = some q) :
    w ∈ d.languageFrom q ↔ a :: w ∈ d.languageFrom p := by
  obtain ⟨letter, rfl, rfl⟩ := transition?_eq_some_iff.mp h
  exact mem_languageFrom_run [letter]

/-! ## Answers -/

theorem recognizes_eq_ok_true_iff : d.recognizes w = .ok true ↔ w ∈ d.language :=
  Alphabet.map_encode_eq_ok_iff

theorem recognizes_eq_ok_iff {b : Bool} : d.recognizes w = .ok b ↔
    (∀ a ∈ w, a ∈ d.alphabet) ∧ (b ↔ w ∈ d.language) := by
  rw [recognizes, Alphabet.map_encode_eq_ok_iff_forall_mem]
  exact and_congr_right fun _ => iff_congr Iff.rfl recognizes_eq_ok_true_iff

/-- Automata over one alphabet with the same words answer every word in the same way. -/
theorem recognizes_eq_of_language_eq {e : DFA α} (halphabet : e.alphabet = d.alphabet)
    (hlanguage : e.language = d.language) : e.recognizes w = d.recognizes w := by
  apply Alphabet.map_encode_congr halphabet
  have hwords : e.recognizes w = .ok true ↔ d.recognizes w = .ok true := by
    rw [recognizes_eq_ok_true_iff, recognizes_eq_ok_true_iff, hlanguage]
  exact hwords

end LanguageTheory.DFA
