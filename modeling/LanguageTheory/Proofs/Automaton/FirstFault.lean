import LanguageTheory.Automaton.Fault
import Mathlib.Data.List.Induction

/-!
# The first fault of a list

A list is read element by element, and an element may be at fault for its own sake or because of the
elements before it. What stops a reader is the first fault. A reader that refuses what is at fault,
and else comes into a state that describes what it has read, reports the first fault or comes
through (`Detects.foldlM_eq_error`, `Detects.exists_foldlM_eq_ok`).
-/

namespace LanguageTheory

section FirstFault

variable {β ε ι : Type} {faulty : List ι → ι → ε → Prop} {step : β → ι → Except ε β}
  {Describes : β → List ι → Prop} {l : List ι} {i : ι} {b : β} {fault : ε}

/-- No element is at fault after the elements before it. -/
def Faultless (faulty : List ι → ι → ε → Prop) (l : List ι) : Prop :=
  ∀ before i after fault, l = before ++ i :: after → ¬ faulty before i fault

/-- The fault of the first element that is at fault. -/
def FirstFault (faulty : List ι → ι → ε → Prop) (l : List ι) (fault : ε) : Prop :=
  ∃ before i after, l = before ++ i :: after ∧ Faultless faulty before ∧ faulty before i fault

theorem faultless_nil : Faultless faulty [] := by
  intro before i after fault hsplit
  simp at hsplit

theorem faultless_append_singleton_iff :
    Faultless faulty (l ++ [i]) ↔ Faultless faulty l ∧ ∀ fault, ¬ faulty l i fault := by
  constructor
  · intro h
    constructor
    · intro before j after fault hsplit
      apply h before j (after ++ [i]) fault
      rw [hsplit, List.append_assoc, List.cons_append]
    · intro fault
      exact h l i [] fault rfl
  · rintro ⟨hl, hi⟩ before j after fault hsplit
    rcases List.eq_nil_or_concat after with rfl | ⟨rest, k, rfl⟩
    · obtain ⟨rfl, hlast⟩ := List.append_inj' hsplit rfl
      obtain rfl := List.singleton_inj.mp hlast
      exact hi fault
    · rw [List.concat_eq_append, ← List.cons_append, ← List.append_assoc] at hsplit
      exact hl before j rest fault (List.append_inj' hsplit rfl).1

/-- A fault in the front part of a list is the first one of the list. -/
theorem FirstFault.append (h : FirstFault faulty l fault) (m : List ι) :
    FirstFault faulty (l ++ m) fault := by
  obtain ⟨before, i, after, rfl, hbefore, hi⟩ := h
  exact ⟨before, i, after ++ m, by rw [List.append_assoc, List.cons_append], hbefore, hi⟩

theorem faultless_or_firstFault (faulty : List ι → ι → ε → Prop) (l : List ι) :
    Faultless faulty l ∨ ∃ fault, FirstFault faulty l fault := by
  induction l using List.reverseRecOn with
  | nil => exact .inl faultless_nil
  | append_singleton l i ih =>
      rcases ih with hl | ⟨fault, hfault⟩
      · by_cases hi : ∃ fault, faulty l i fault
        · obtain ⟨fault, hfault⟩ := hi
          exact .inr ⟨fault, l, i, [], rfl, hl, hfault⟩
        · exact .inl (faultless_append_singleton_iff.mpr ⟨hl, not_exists.mp hi⟩)
      · exact .inr ⟨fault, hfault.append [i]⟩

/-- A step that refuses exactly what is at fault, and keeps a description of what has been read. -/
structure Detects (faulty : List ι → ι → ε → Prop) (step : β → ι → Except ε β)
    (Describes : β → List ι → Prop) : Prop where
  refuses : ∀ l b i fault, Describes b l → faulty l i fault → step b i = .error fault
  accepts : ∀ l b i, Describes b l → (∀ fault, ¬ faulty l i fault) →
    ∃ c, step b i = .ok c ∧ Describes c (l ++ [i])

namespace Detects

variable (h : Detects faulty step Describes) (hb : Describes b [])
include h hb

/-- A list without a fault is read, and the state describes it. -/
theorem exists_foldlM_eq_ok (hl : Faultless faulty l) :
    ∃ c, l.foldlM step b = .ok c ∧ Describes c l := by
  induction l using List.reverseRecOn with
  | nil => exact ⟨b, rfl, hb⟩
  | append_singleton l i ih =>
      obtain ⟨hfront, hi⟩ := faultless_append_singleton_iff.mp hl
      obtain ⟨c, hread, hdescribes⟩ := ih hfront
      obtain ⟨after, hstep, hafter⟩ := h.accepts l c i hdescribes hi
      refine ⟨after, ?_, hafter⟩
      rw [List.foldlM_append, hread]
      simp only [bind, Except.bind, List.foldlM_cons, hstep]
      rfl

/-- The first fault is reported; what follows it is not read. -/
theorem foldlM_eq_error (hfault : FirstFault faulty l fault) :
    l.foldlM step b = .error fault := by
  obtain ⟨before, i, after, rfl, hbefore, hi⟩ := hfault
  obtain ⟨c, hread, hdescribes⟩ := h.exists_foldlM_eq_ok hb hbefore
  rw [List.foldlM_append, hread]
  simp only [bind, Except.bind, List.foldlM_cons, h.refuses before c i fault hdescribes hi]

end Detects

end FirstFault

/-! ## States and letters -/

namespace AutomatonFault

variable {α : Type} {states state : Nat}

theorem requireState_of_le (h : states ≤ state) :
    requireState (α := α) states state = .error (.stateOutOfRange state states) :=
  dif_neg (Nat.not_lt.mpr h)

theorem requireState_val (state : Fin states) :
    requireState (α := α) states state = .ok state :=
  dif_pos state.2

theorem requireLetter_of_not_mem [TotalOrd α] {A : Alphabet α} {symbol : α} (h : symbol ∉ A) :
    requireLetter A symbol = .error (.unknownSymbol symbol) := by
  rw [requireLetter, SortedSet.rank?_eq_none_iff.mpr h]

theorem requireLetter_get [TotalOrd α] {A : Alphabet α} (letter : Alphabet.Letter A) :
    requireLetter A (A.get letter) = .ok letter := by
  rw [requireLetter, SortedSet.rank?_eq_some_iff.mpr rfl]

end AutomatonFault

end LanguageTheory
