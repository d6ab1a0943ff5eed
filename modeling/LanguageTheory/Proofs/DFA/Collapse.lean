import LanguageTheory.DFA.Reachable
import LanguageTheory.Proofs.DFA.Language
import LanguageTheory.Proofs.Numbering.Ranks

/-!
# Languages of collapsed automata

When representatives agree with the states they stand for, a run of the collapsed automaton goes
through the representatives of a run (`Represents.keptState_run`), and every state that is kept has
the language it had.
-/

namespace LanguageTheory.DFA

variable {α : Type} [TotalOrd α] {d : DFA α}

/-- Every state is reached by some letters. -/
def Accessible (d : DFA α) : Prop := ∀ p, ∃ letters, d.run d.start letters = p

theorem Accessible.exists_reaches (hd : d.Accessible) (p : d.State) : ∃ w, d.Reaches w p := by
  obtain ⟨letters, hletters⟩ := hd p
  exact ⟨_, letters, rfl, hletters⟩

/-- Different states have different languages. -/
def Reduced (d : DFA α) : Prop := Function.Injective d.languageFrom

/-- Representatives are kept, stand for themselves, and behave like the states they stand for. -/
structure Represents (d : DFA α) (kept : Numbering d.State)
    (representative : d.State → d.State) : Prop where
  mem_kept : ∀ p ∈ kept, ∀ letter, representative (d.next p letter) ∈ kept
  eq_self : ∀ p ∈ kept, representative p = p
  idempotent : ∀ p, representative (representative p) = representative p
  next_eq : ∀ p letter,
    representative (d.next (representative p) letter) = representative (d.next p letter)
  isFinal_eq : ∀ p, d.isFinal (representative p) = d.isFinal p

section Collapse

variable {kept : Numbering d.State} {hkept : 0 < kept.size} {representative : d.State → d.State}

/-- The former state of a state that is kept. -/
def keptState (i : (d.collapse kept hkept representative).State) : d.State := kept.get i

theorem keptState_mem (i : (d.collapse kept hkept representative).State) : keptState i ∈ kept :=
  Numbering.get_mem kept i

theorem exists_keptState_eq {p : d.State} (hp : p ∈ kept) :
    ∃ i : (d.collapse kept hkept representative).State, keptState i = p := by
  obtain ⟨i, _, hi⟩ := Numbering.exists_get_eq hp
  exact ⟨i, hi⟩

theorem keptState_inj {i j : (d.collapse kept hkept representative).State}
    (h : keptState i = keptState j) : i = j :=
  Numbering.get_inj h

theorem isFinal_collapse (i : (d.collapse kept hkept representative).State) :
    (d.collapse kept hkept representative).isFinal i = d.isFinal (keptState i) :=
  isFinal_ofFn i

namespace Represents

variable (h : Represents d kept representative)
include h

theorem keptState_next (i : (d.collapse kept hkept representative).State) (letter : d.Letter) :
    keptState ((d.collapse kept hkept representative).next i letter) =
      representative (d.next (keptState i) letter) := by
  have htarget : (d.collapse kept hkept representative).next i letter =
      (kept.rank? (representative (d.next (keptState i) letter))).getD ⟨0, hkept⟩ :=
    next_ofFn i letter
  rw [htarget]
  exact Numbering.get_getD_rank? (h.mem_kept _ (keptState_mem i) letter)

theorem representative_run (p : d.State) (letters : List d.Letter) :
    representative (d.run (representative p) letters) = representative (d.run p letters) := by
  induction letters generalizing p with
  | nil => exact h.idempotent p
  | cons letter letters ih =>
      rw [run_cons, run_cons, ← ih, h.next_eq, ih]

/-- Runs go through representatives. -/
theorem keptState_run (i : (d.collapse kept hkept representative).State)
    (letters : List d.Letter) :
    keptState ((d.collapse kept hkept representative).run i letters) =
      representative (d.run (keptState i) letters) := by
  induction letters generalizing i with
  | nil => exact (h.eq_self _ (keptState_mem i)).symm
  | cons letter letters ih =>
      have hrest := ih ((d.collapse kept hkept representative).next i letter)
      rw [h.keptState_next, h.representative_run] at hrest
      exact hrest

theorem languageFrom_collapse (i : (d.collapse kept hkept representative).State) :
    (d.collapse kept hkept representative).languageFrom i = d.languageFrom (keptState i) := by
  have hfinal : ∀ letters : List d.Letter,
      (d.collapse kept hkept representative).isFinal
        ((d.collapse kept hkept representative).run i letters) =
      d.isFinal (d.run (keptState i) letters) := by
    intro letters
    rw [isFinal_collapse, h.keptState_run, h.isFinal_eq]
  ext w
  apply exists_congr
  intro letters
  apply and_congr_right
  intro _
  exact iff_of_eq (congrArg (· = true) (hfinal letters))

theorem language_collapse
    (hstart : keptState (d.collapse kept hkept representative).start = d.start) :
    (d.collapse kept hkept representative).language = d.language := by
  rw [language, h.languageFrom_collapse, hstart, language]

/-- States that were reached are reached. -/
theorem accessible_collapse
    (hstart : keptState (d.collapse kept hkept representative).start = d.start)
    (hreached : ∀ p ∈ kept, ∃ letters, d.run d.start letters = p) :
    (d.collapse kept hkept representative).Accessible := by
  intro i
  obtain ⟨letters, hletters⟩ := hreached _ (keptState_mem i)
  refine ⟨letters, keptState_inj ?_⟩
  rw [h.keptState_run, hstart, hletters, h.eq_self _ (keptState_mem i)]

end Represents

end Collapse

end LanguageTheory.DFA
