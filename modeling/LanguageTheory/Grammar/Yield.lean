import LanguageTheory.Grammar.Basic
import LanguageTheory.SortedSet.Closure

/-!
# Variables that yield words over given symbols

Variables with a production over given symbols and variables already found are found in turn, until
there is no new one. Over no symbol these are the variables that can vanish, over the terminals
those that derive some word. `yielding` is the least set closed under the rule.
-/

namespace LanguageTheory.Grammar

variable {g : Grammar} {base : Char → Bool} {found : SortedSet Char} {p : Production} {c : Char}

/-- Whether all symbols of a right-hand side are given or found. -/
def covers (base : Char → Bool) (found : SortedSet Char) (rhs : List Char) : Bool :=
  rhs.all fun c => base c || c ∈ found

theorem covers_iff {rhs : List Char} : covers base found rhs ↔ ∀ c ∈ rhs, base c ∨ c ∈ found := by
  simp [covers]

/-- The variables that one more round finds. -/
def yieldRound (g : Grammar) (base : Char → Bool) (found : SortedSet Char) : SortedSet Char :=
  .ofList ((g.productions.toList.filter fun p => p.lhs ∉ found ∧ covers base found p.rhs).map
    Production.lhs)

theorem mem_yieldRound : c ∈ g.yieldRound base found ↔
    ∃ p ∈ g.productions, (p.lhs ∉ found ∧ covers base found p.rhs) ∧ p.lhs = c := by
  simp [yieldRound, SortedSet.mem_toList, and_assoc]

/-- Finds variables until there is no new one. -/
def yieldFrom (g : Grammar) (base : Char → Bool) (found : SortedSet Char) : SortedSet Char :=
  let fresh := g.yieldRound base found
  if _hfresh : fresh.isEmpty then found else g.yieldFrom base (found ∪ fresh)
termination_by (g.productions.toList.filter fun p => p.lhs ∉ found).length
decreasing_by
  simp only [SortedSet.isEmpty_iff, Classical.not_forall, Classical.not_not] at _hfresh
  obtain ⟨c, hc⟩ := _hfresh
  obtain ⟨p, hp, ⟨hnot, _⟩, rfl⟩ := mem_yieldRound.mp hc
  refine length_filter_lt (fun q hq => ?_) hp ?_ ?_
  · simp only [SortedSet.mem_union, not_or, decide_eq_true_eq] at hq ⊢
    exact hq.1
  · simpa using hnot
  · simp only [SortedSet.mem_union, not_or, decide_eq_true_eq, not_and, Classical.not_not]
    exact fun _ => hc

/-- The variables that derive words over the given symbols. -/
def yielding (g : Grammar) (base : Char → Bool) : SortedSet Char := g.yieldFrom base ∅

/-- The variables that derive the empty word. -/
def nullable (g : Grammar) : SortedSet Char := g.yielding fun _ => false

/-- The variables that derive some word of terminals. -/
def generating (g : Grammar) : SortedSet Char := g.yielding fun c => c ∉ g.vars

/-- A variable with a covered production is found. -/
theorem lhs_mem_yieldFrom (hp : p ∈ g.productions)
    (hcovers : covers base (g.yieldFrom base found) p.rhs) : p.lhs ∈ g.yieldFrom base found := by
  fun_induction yieldFrom g base found with
  | case1 found fresh hfresh =>
      by_cases hmem : p.lhs ∈ found
      · exact hmem
      · exact absurd (mem_yieldRound.mpr ⟨p, hp, ⟨hmem, hcovers⟩, rfl⟩)
          (SortedSet.isEmpty_iff.mp hfresh p.lhs)
  | case2 found fresh hfresh ih => exact ih hcovers

theorem lhs_mem_yielding (hp : p ∈ g.productions) (hcovers : covers base (g.yielding base) p.rhs) :
    p.lhs ∈ g.yielding base :=
  lhs_mem_yieldFrom hp hcovers

/-- What holds of a variable whenever it holds of the found symbols of one of its productions holds
of every variable that is found. -/
theorem yieldFrom_induction {motive : Char → Prop} (hfound : ∀ c ∈ found, motive c)
    (hstep : ∀ p ∈ g.productions, (∀ c ∈ p.rhs, base c ∨ motive c) → motive p.lhs)
    (hc : c ∈ g.yieldFrom base found) : motive c := by
  fun_induction yieldFrom g base found with
  | case1 => exact hfound c hc
  | case2 found fresh hfresh ih =>
      refine ih (fun d hd => ?_) hc
      rcases SortedSet.mem_union.mp hd with hold | hnew
      · exact hfound d hold
      · obtain ⟨p, hp, ⟨_, hcovers⟩, rfl⟩ := mem_yieldRound.mp hnew
        exact hstep p hp fun e he => (covers_iff.mp hcovers e he).imp_right (hfound e)

theorem yielding_induction {motive : Char → Prop}
    (hstep : ∀ p ∈ g.productions, (∀ c ∈ p.rhs, base c ∨ motive c) → motive p.lhs)
    (hc : c ∈ g.yielding base) : motive c :=
  yieldFrom_induction (fun d hd => absurd hd (SortedSet.not_mem_empty d)) hstep hc

/-- Only variables are found. -/
theorem mem_variables_of_mem_yielding (hc : c ∈ g.yielding base) : c ∈ g.vars :=
  yielding_induction (fun p hp _ => g.lhs_mem p hp) hc

end LanguageTheory.Grammar
