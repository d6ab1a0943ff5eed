import LanguageTheory.SortedSet
import LanguageTheory.Linked
import LanguageTheory.Counting
import Std.Data.TreeSet

/-!
# Closure under successors

The set of all elements that can be reached from a set by following a successor map any number of
times. Successors stay within a finite bound, which is why the search ends: every element waits
once. `mem_closure` says that the result is exactly what can be reached.
-/

universe u

namespace LanguageTheory

/-- All successors are in some finite list. -/
structure Bounded {α : Type u} (next : α → List α) : Prop where
  exists_bound : ∃ bound : List α, ∀ a, ∀ b ∈ next a, b ∈ bound

namespace SortedSet

variable {α : Type u} [TotalOrd α]

/-! ## The search -/

section Search

variable {next : α → List α} {hnext : Bounded next} {seen : Std.TreeSet α} {waiting : List α}
  {a b : α}

theorem contains_insertMany {l : List α} :
    (seen.insertMany l).contains b ↔ seen.contains b ∨ b ∈ l := by
  simp [Std.TreeSet.contains_insertMany_list]

/-- Seeing new elements leaves fewer elements of the bound unseen. -/
theorem length_unseen_lt {bound successors : List α} (hbound : ∀ b ∈ successors, b ∈ bound)
    (hfresh : ¬ (successors.filter fun b => !seen.contains b).isEmpty) :
    (bound.filter fun a =>
        !(seen.insertMany (successors.filter fun b => !seen.contains b)).contains a).length <
      (bound.filter fun a => !seen.contains a).length := by
  obtain ⟨b, hb⟩ := List.exists_mem_of_ne_nil _ fun hnil => hfresh (List.isEmpty_iff.mpr hnil)
  obtain ⟨hmem, hunseen⟩ := List.mem_filter.mp hb
  refine length_filter_lt (fun c hc => ?_) (hbound b hmem) hunseen ?_
  · simp only [Bool.not_eq_true', Bool.eq_false_iff, ne_eq, contains_insertMany, not_or] at hc ⊢
    exact hc.1
  · simp only [Bool.not_eq_true', Bool.not_eq_false, contains_insertMany]
    exact .inr hb

/-- Adds what can be reached from the waiting elements, which have been seen already. -/
def spread (next : α → List α) (hnext : Bounded next) (seen : Std.TreeSet α) (waiting : List α) :
    Std.TreeSet α :=
  match waiting with
  | [] => seen
  | a :: waiting =>
      let fresh := (next a).filter fun b => !seen.contains b
      if _hfresh : fresh.isEmpty then spread next hnext seen waiting
      else spread next hnext (seen.insertMany fresh) (fresh ++ waiting)
termination_by
  ((hnext.exists_bound.choose.filter fun a => !seen.contains a).length, waiting.length)
decreasing_by
  · exact Prod.Lex.right _ (Nat.lt_succ_self _)
  · exact Prod.Lex.left _ _ (length_unseen_lt (hnext.exists_bound.choose_spec a) _hfresh)

theorem contains_spread_of_contains (h : seen.contains b) :
    (spread next hnext seen waiting).contains b := by
  fun_induction spread next hnext seen waiting with
  | case1 => exact h
  | case2 seen a waiting fresh hfresh ih => exact ih h
  | case3 seen a waiting fresh hfresh ih => exact ih (contains_insertMany.mpr (.inl h))

/-- What is found was seen before or can be reached. -/
theorem linked_of_contains_spread (h : (spread next hnext seen waiting).contains b) :
    seen.contains b ∨ ∃ a ∈ waiting, Linked (fun x y => y ∈ next x) a b := by
  fun_induction spread next hnext seen waiting with
  | case1 => exact .inl h
  | case2 seen a waiting fresh hfresh ih =>
      exact (ih h).imp_right fun ⟨c, hc, hcb⟩ => ⟨c, List.mem_cons_of_mem _ hc, hcb⟩
  | case3 seen a waiting fresh hfresh ih =>
      have hback : ∀ c ∈ fresh, c ∈ next a := fun c hc => (List.mem_filter.mp hc).1
      rcases ih h with hseen | ⟨c, hc, hcb⟩
      · rcases contains_insertMany.mp hseen with hold | hnew
        · exact .inl hold
        · exact .inr ⟨a, List.mem_cons_self, Linked.refl.tail (hback b hnew)⟩
      · rcases List.mem_append.mp hc with hnew | hold
        · exact .inr ⟨a, List.mem_cons_self, hcb.head (hback c hnew)⟩
        · exact .inr ⟨c, List.mem_cons_of_mem _ hold, hcb⟩

/-- When the search ends, the successors of all that is found are found. -/
theorem contains_spread_of_next
    (hold : ∀ a, seen.contains a → a ∉ waiting → ∀ b ∈ next a, seen.contains b)
    (ha : (spread next hnext seen waiting).contains a) (hb : b ∈ next a) :
    (spread next hnext seen waiting).contains b := by
  fun_induction spread next hnext seen waiting with
  | case1 seen => exact hold a ha List.not_mem_nil b hb
  | case2 seen c waiting fresh hfresh ih =>
      refine ih (fun d hd hwait e he => ?_) ha
      by_cases hdc : d = c
      · have hnone : fresh = [] := List.isEmpty_iff.mp hfresh
        have hseen := List.filter_eq_nil_iff.mp hnone e (hdc ▸ he)
        simpa using hseen
      · exact hold d hd (by simp [hdc, hwait]) e he
  | case3 seen c waiting fresh hfresh ih =>
      refine ih (fun d hd hwait e he => ?_) ha
      simp only [List.mem_append, not_or] at hwait
      have hdseen : seen.contains d := (contains_insertMany.mp hd).resolve_right hwait.1
      rw [contains_insertMany]
      by_cases hdc : d = c
      · by_cases heseen : seen.contains e
        · exact .inl heseen
        · refine .inr (List.mem_filter.mpr ⟨hdc ▸ he, ?_⟩)
          rwa [Bool.not_eq_true', ← Bool.not_eq_true]
      · exact .inl (hold d hdseen (by simp [hdc, hwait.2]) e he)

end Search

/-! ## The closure -/

variable {next : α → SortedSet α} {hnext : Bounded fun a => (next a).toList}
  {start : SortedSet α} {a b : α}

/-- The elements of a balanced tree, which lists them in order. -/
def ofTree (t : Std.TreeSet α) : SortedSet α := ofSorted t.toList t.ordered_toList

theorem mem_ofTree {t : Std.TreeSet α} : a ∈ ofTree t ↔ t.contains a :=
  Std.TreeSet.mem_toList

/-- What can be reached from `start` by following `next`, which stays within a finite bound. -/
def closure (next : α → SortedSet α) (hnext : Bounded fun a => (next a).toList)
    (start : SortedSet α) : SortedSet α :=
  ofTree (spread (fun a => (next a).toList) hnext (.ofList start.toList) start.toList)

theorem contains_ofList_toList : (Std.TreeSet.ofList start.toList).contains a ↔ a ∈ start := by
  simp [mem_toList]

/-- The closure is exactly what can be reached. -/
theorem mem_closure : b ∈ closure next hnext start ↔
    ∃ a ∈ start, Linked (fun x y => y ∈ next x) a b := by
  rw [closure, mem_ofTree]
  constructor
  · intro h
    rcases linked_of_contains_spread h with hb | hlink
    · exact ⟨b, contains_ofList_toList.mp hb, .refl⟩
    · exact hlink
  · rintro ⟨a, ha, hab⟩
    induction hab with
    | refl => exact contains_spread_of_contains (contains_ofList_toList.mpr ha)
    | tail _ hc ih =>
        exact contains_spread_of_next
          (fun d hd hwait => absurd (contains_ofList_toList.mp hd) hwait) ih hc

theorem mem_closure_singleton : b ∈ closure next hnext {a} ↔ Linked (fun x y => y ∈ next x) a b := by
  rw [mem_closure]
  constructor
  · rintro ⟨c, hc, hlinked⟩
    rwa [mem_singleton.mp hc] at hlinked
  · intro hlinked
    exact ⟨a, mem_singleton.mpr rfl, hlinked⟩

theorem mem_closure_of_next (ha : a ∈ closure next hnext start) (hb : b ∈ next a) :
    b ∈ closure next hnext start := by
  obtain ⟨c, hc, hca⟩ := mem_closure.mp ha
  exact mem_closure.mpr ⟨c, hc, hca.tail hb⟩

/-- The closure is what contains the elements, is not left by successors and is reached. -/
theorem closure_eq {s : SortedSet α} (hstart : ∀ a ∈ start, a ∈ s)
    (hclosed : ∀ a ∈ s, ∀ b ∈ next a, b ∈ s) (hreached : ∀ b ∈ s, b ∈ closure next hnext start) :
    closure next hnext start = s := by
  apply ext
  intro b
  refine ⟨?_, hreached b⟩
  intro hb
  obtain ⟨a, ha, hlinked⟩ := mem_closure.mp hb
  clear hb
  induction hlinked with
  | refl => exact hstart a ha
  | tail _ hc ih => exact hclosed _ ih _ hc

end SortedSet

end LanguageTheory
