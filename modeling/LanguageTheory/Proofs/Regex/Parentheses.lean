import Mathlib.Data.List.Infix
import Mathlib.Order.Bounds.Defs

/-!
# Parentheses that are not closed

An open parenthesis is unmatched in a text if nothing after it closes it. A text read from left to
right has its unmatched parentheses on a stack (`OpenAt`): an open parenthesis is put on the stack,
and a closing one takes the innermost away.
-/

namespace LanguageTheory.Regex

variable {text first second rest : List Char} {positions : List Nat} {c : Char} {i : Nat}

/-! ## Texts that close only their own parentheses -/

/-- No beginning of the text closes more parentheses than it opens. -/
def ClosesOwn (text : List Char) : Prop :=
  ∀ start, start <+: text → start.count ')' ≤ start.count '('

theorem ClosesOwn.append (hfirst : ClosesOwn first) (hsecond : ClosesOwn second) :
    ClosesOwn (first ++ second) := by
  intro start hstart
  rcases List.prefix_or_prefix_of_prefix hstart (List.prefix_append first second) with hin | hbeyond
  · exact hfirst start hin
  · obtain ⟨beyond, rfl⟩ := hbeyond
    have hcount := hfirst first (List.prefix_refl first)
    have hbeyond := hsecond beyond ((List.prefix_append_right_inj first).mp hstart)
    rw [List.count_append, List.count_append]
    omega

theorem ClosesOwn.of_append (h : ClosesOwn (first ++ second)) : ClosesOwn first :=
  fun start hstart => h start (hstart.trans (List.prefix_append first second))

/-- A text that closes its own parentheses, and all of them. -/
structure Balanced (text : List Char) : Prop where
  closesOwn : ClosesOwn text
  closesAll : text.count '(' ≤ text.count ')'

namespace Balanced

theorem nil : Balanced [] := by
  refine ⟨?_, Nat.le_refl 0⟩
  intro start hstart
  rw [List.prefix_nil.mp hstart]
  exact Nat.le_refl 0

theorem append (hfirst : Balanced first) (hsecond : Balanced second) :
    Balanced (first ++ second) := by
  refine ⟨hfirst.closesOwn.append hsecond.closesOwn, ?_⟩
  rw [List.count_append, List.count_append]
  exact Nat.add_le_add hfirst.closesAll hsecond.closesAll

/-- Every other character is balanced by itself. -/
theorem singleton (hopen : c ≠ '(') (hclose : c ≠ ')') : Balanced [c] := by
  refine ⟨?_, ?_⟩
  · intro start hstart
    have hzero : start.count ')' = 0 := by
      refine List.count_eq_zero.mpr ?_
      intro hmem
      exact hclose (List.mem_singleton.mp (hstart.subset hmem)).symm
    rw [hzero]
    exact Nat.zero_le _
  · rw [List.count_eq_zero.mpr fun hmem => hopen (List.mem_singleton.mp hmem).symm]
    exact Nat.zero_le _

theorem group (h : Balanced text) : Balanced ('(' :: text ++ [')']) := by
  have hclosed := h.closesOwn text (List.prefix_refl text)
  have hopened := h.closesAll
  refine ⟨?_, by simp; omega⟩
  intro start hstart
  rcases List.prefix_cons_iff.mp hstart with rfl | ⟨inner, rfl, hinner⟩
  · exact Nat.le_refl 0
  rcases List.prefix_concat_iff.mp hinner with rfl | hinner
  · simp
    omega
  · have hcount := h.closesOwn inner hinner
    simp
    omega

end Balanced

/-! ## Unmatched parentheses -/

/-- An open parenthesis stands at a position of the text, and what follows does not close it. -/
def Unmatched (text : List Char) (i : Nat) : Prop :=
  ∃ before after, text = before ++ '(' :: after ∧ before.length = i ∧ ClosesOwn after

theorem Unmatched.lt_length (h : Unmatched text i) : i < text.length := by
  obtain ⟨before, after, rfl, rfl, -⟩ := h
  simp

/-- Every open parenthesis of a balanced text is closed in it. -/
theorem Balanced.not_closesOwn_after {before after : List Char}
    (h : Balanced (before ++ '(' :: after)) : ¬ ClosesOwn after := by
  intro hafter
  have hbefore := h.closesOwn before (List.prefix_append _ _)
  have hclosed := hafter after (List.prefix_refl _)
  have hopened := h.closesAll
  simp at hopened
  omega

theorem Balanced.not_unmatched (h : Balanced text) : ¬ Unmatched text i := by
  intro hunmatched
  obtain ⟨_, _, rfl, -, hafter⟩ := hunmatched
  exact h.not_closesOwn_after hafter

/-- What is balanced closes nothing before it and leaves nothing open. -/
theorem unmatched_append_iff (hrest : Balanced rest) :
    Unmatched (text ++ rest) i ↔ Unmatched text i := by
  refine ⟨?_, ?_⟩
  · intro hunmatched
    obtain ⟨before, after, htext, hposition, hafter⟩ := hunmatched
    -- the parenthesis is one of the text, since those of the rest are closed
    rcases List.append_eq_append_iff.mp htext with ⟨inner, -, rfl⟩ | ⟨inner, rfl, hinner⟩
    · exact absurd hafter hrest.not_closesOwn_after
    · cases inner with
      | nil =>
          obtain rfl : '(' :: after = rest := hinner
          have hbalanced : Balanced ([] ++ '(' :: after) := hrest
          exact absurd hafter hbalanced.not_closesOwn_after
      | cons _ inner =>
          obtain ⟨rfl, rfl⟩ := List.cons.inj hinner
          exact ⟨before, inner, rfl, hposition, hafter.of_append⟩
  · intro hunmatched
    obtain ⟨before, after, rfl, hposition, hafter⟩ := hunmatched
    exact ⟨before, after ++ rest, by simp, hposition, hafter.append hrest.closesOwn⟩

theorem closesOwn_openParenthesis : ClosesOwn ['('] := by
  intro start hstart
  rcases List.prefix_cons_iff.mp hstart with rfl | ⟨_, rfl, hnil⟩
  · exact Nat.le_refl 0
  · rw [List.prefix_nil.mp hnil]
    decide

theorem unmatched_concat_openParenthesis_iff :
    Unmatched (text ++ ['(']) i ↔ i = text.length ∨ Unmatched text i := by
  refine ⟨?_, ?_⟩
  · intro hunmatched
    obtain ⟨before, after, htext, rfl, hafter⟩ := hunmatched
    rcases List.eq_nil_or_concat after with rfl | ⟨after, c, rfl⟩
    · exact .inl (by rw [(List.append_inj' htext rfl).1])
    · rw [List.concat_eq_append, ← List.cons_append, ← List.append_assoc] at htext
      rw [List.concat_eq_append] at hafter
      exact .inr ⟨before, after, (List.append_inj' htext rfl).1, rfl, hafter.of_append⟩
  · intro hunmatched
    rcases hunmatched with rfl | ⟨before, after, rfl, hposition, hafter⟩
    · exact ⟨text, [], rfl, rfl, Balanced.nil.closesOwn⟩
    · exact ⟨before, after ++ ['('], by simp, hposition, hafter.append closesOwn_openParenthesis⟩

/-! ## The stack of open parentheses -/

/-- The positions of the parentheses that a text leaves open, the innermost first. -/
inductive OpenAt : List Nat → List Char → Prop
  | none {text : List Char} : Balanced text → OpenAt [] text
  | some {positions : List Nat} {text rest : List Char} : OpenAt positions text → Balanced rest →
      OpenAt (text.length :: positions) (text ++ '(' :: rest)

namespace OpenAt

theorem openParenthesis (h : OpenAt positions text) :
    OpenAt (text.length :: positions) (text ++ ['(']) :=
  .some h .nil

theorem balanced (h : OpenAt positions text) (hrest : Balanced rest) :
    OpenAt positions (text ++ rest) := by
  cases h with
  | none htext => exact .none (htext.append hrest)
  | some h hinner =>
      rw [List.append_assoc]
      exact .some h (hinner.append hrest)

theorem closeParenthesis (h : OpenAt (i :: positions) text) :
    OpenAt positions (text ++ [')']) := by
  cases h with
  | some h hinner =>
      rw [List.append_assoc]
      exact h.balanced hinner.group

/-- The stack has the unmatched parentheses. -/
theorem mem_iff (h : OpenAt positions text) : i ∈ positions ↔ Unmatched text i := by
  induction h with
  | none htext => simp [htext.not_unmatched]
  | @some positions text rest _ hrest ih =>
      calc i ∈ text.length :: positions
        _ ↔ i = text.length ∨ Unmatched text i := by rw [List.mem_cons, ih]
        _ ↔ Unmatched (text ++ ['(']) i := unmatched_concat_openParenthesis_iff.symm
        _ ↔ Unmatched (text ++ ['('] ++ rest) i := (unmatched_append_iff hrest).symm
        _ ↔ Unmatched (text ++ '(' :: rest) i := by rw [List.append_assoc]; rfl

/-- The innermost parenthesis is the last one. -/
theorem isGreatest (h : OpenAt (i :: positions) text) : IsGreatest {j | Unmatched text j} i := by
  refine ⟨h.mem_iff.mp List.mem_cons_self, ?_⟩
  intro j hj
  cases h with
  | some houter hrest =>
      rcases List.mem_cons.mp ((OpenAt.some houter hrest).mem_iff.mpr hj) with rfl | houtside
      · exact Nat.le_refl _
      · exact (houter.mem_iff.mp houtside).lt_length.le

end OpenAt

end LanguageTheory.Regex
