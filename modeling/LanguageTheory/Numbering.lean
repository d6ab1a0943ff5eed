import LanguageTheory.TotalOrd
import Std.Data.TreeMap

/-!
# Numbered values

Different values are numbered in the order in which they are added. A value is found by its number
and a number by its value, and both ways agree (`rank?_eq_some_iff`).
-/

universe u

namespace LanguageTheory

/-- Different values with their numbers. -/
structure Numbering (σ : Type u) [TotalOrd σ] where
  numbers : Std.TreeMap σ Nat
  values : Array σ
  numbers_eq : ∀ (a : σ) (i : Nat), numbers[a]? = some i ↔ values[i]? = some a

namespace Numbering

variable {σ : Type u} [TotalOrd σ] {n : Numbering σ} {a b : σ} {l : List σ}

/-- The values in the order of their numbers. -/
def toList (n : Numbering σ) : List σ := n.values.toList

instance : Membership σ (Numbering σ) := ⟨fun n a => a ∈ n.toList⟩

instance (a : σ) (n : Numbering σ) : Decidable (a ∈ n) :=
  inferInstanceAs (Decidable (a ∈ n.toList))

theorem mem_toList : a ∈ n.toList ↔ a ∈ n := Iff.rfl

/-- The number of values. -/
def size (n : Numbering σ) : Nat := n.values.size

/-- The value with a number. -/
def get (n : Numbering σ) (i : Fin n.size) : σ :=
  have hi : i.val < n.values.size := i.2
  n.values[i.val]

/-- No value. -/
protected def empty : Numbering σ where
  numbers := ∅
  values := #[]
  numbers_eq a i := by simp

instance : EmptyCollection (Numbering σ) := ⟨.empty⟩

@[simp] theorem not_mem_empty (a : σ) : a ∉ (∅ : Numbering σ) := List.not_mem_nil

/-- Values without a number are those that are missing. -/
theorem numbers_eq_none_iff : n.numbers[a]? = none ↔ a ∉ n := by
  rw [← mem_toList, toList, Array.mem_toList_iff, Array.mem_iff_getElem?]
  constructor
  · rintro hnone ⟨i, hi⟩
    rw [(n.numbers_eq a i).mpr hi] at hnone
    cases hnone
  · intro hmissing
    refine Option.eq_none_iff_forall_ne_some.mpr fun i hi => hmissing ⟨i, ?_⟩
    exact (n.numbers_eq a i).mp hi

/-- Adds a value with the next number. -/
def push (n : Numbering σ) (a : σ) (ha : n.numbers[a]? = none) : Numbering σ where
  numbers := n.numbers.insert a n.values.size
  values := n.values.push a
  numbers_eq b i := by
    simp only [Std.TreeMap.getElem?_insert, Std.LawfulEqOrd.compare_eq_iff_eq,
      Array.getElem?_push]
    by_cases hab : a = b
    · subst hab
      have hother : n.values[i]? ≠ some a := fun hi => by
        rw [(n.numbers_eq a i).mpr hi] at ha
        cases ha
      by_cases hi : i = n.values.size
      · simp [hi]
      · simpa [hi, hother] using fun h : n.values.size = i => hi h.symm
    · by_cases hi : i = n.values.size
      · subst hi
        have hlast : n.numbers[b]? ≠ some n.values.size := fun h => by
          have hvalue := (n.numbers_eq b _).mp h
          simp at hvalue
        simp [hab, hlast]
      · simp [hab, hi, n.numbers_eq b i]

/-- Adds a value, unless it has a number. -/
def add (n : Numbering σ) (a : σ) : Numbering σ :=
  match ha : n.numbers[a]? with
  | some _ => n
  | none => n.push a ha

theorem toList_add : (n.add a).toList = if a ∈ n then n.toList else n.toList ++ [a] := by
  unfold add
  split
  next i hi =>
    have hmem : a ∈ n := Classical.byContradiction fun hnot => by
      rw [numbers_eq_none_iff.mpr hnot] at hi
      cases hi
    rw [if_pos hmem]
  next hnone => rw [if_neg (numbers_eq_none_iff.mp hnone), toList, push, Array.toList_push, toList]

@[simp] theorem mem_add : b ∈ n.add a ↔ b = a ∨ b ∈ n := by
  rw [← mem_toList, toList_add]
  split
  next hmem =>
    refine ⟨.inr, ?_⟩
    rintro (rfl | hb)
    · exact hmem
    · exact hb
  next => rw [List.mem_append, List.mem_singleton, or_comm, mem_toList]

/-- Adds the values of a list in turn. -/
def addAll (n : Numbering σ) (l : List σ) : Numbering σ := l.foldl add n

@[simp] theorem mem_addAll : b ∈ n.addAll l ↔ b ∈ l ∨ b ∈ n := by
  induction l generalizing n with
  | nil => simp [addAll]
  | cons a l ih =>
      have hstep : b ∈ n.addAll (a :: l) ↔ b ∈ l ∨ b ∈ n.add a := ih
      rw [hstep, mem_add, List.mem_cons]
      exact or_left_comm.trans or_assoc.symm

/-- The different values of a list, numbered by their first occurrences. -/
def ofList (l : List σ) : Numbering σ := (∅ : Numbering σ).addAll l

@[simp] theorem mem_ofList : a ∈ ofList l ↔ a ∈ l := by simp [ofList]

theorem size_pos_of_mem (ha : a ∈ n) : 0 < n.size := by
  rw [← mem_toList, toList, Array.mem_toList_iff] at ha
  exact Array.size_pos_of_mem ha

theorem size_eq_zero_iff : n.size = 0 ↔ ∀ a, a ∉ n := by
  have hlength : n.size = n.toList.length := Array.length_toList.symm
  rw [hlength, List.length_eq_zero_iff]
  exact List.eq_nil_iff_forall_not_mem

/-- The number of a value. -/
def rank? (n : Numbering σ) (a : σ) : Option (Fin n.size) :=
  match ha : n.numbers[a]? with
  | some i => some ⟨i, (Array.getElem?_eq_some_iff.mp ((n.numbers_eq a i).mp ha)).1⟩
  | none => none

theorem rank?_eq_some_iff {i : Fin n.size} : n.rank? a = some i ↔ n.get i = a := by
  have hvalue : n.get i = a ↔ n.numbers[a]? = some i.val := by
    rw [n.numbers_eq, Array.getElem?_eq_some_iff]
    exact ⟨fun h => ⟨i.2, h⟩, fun h => h.2⟩
  rw [hvalue]
  unfold rank?
  split
  next j hj => simp [hj, Fin.ext_iff]
  next hnone => simp [hnone]

theorem rank?_eq_none_iff : n.rank? a = none ↔ a ∉ n := by
  rw [← numbers_eq_none_iff]
  unfold rank?
  split
  next i hi => simp [hi]
  next hnone => simp [hnone]

end Numbering

end LanguageTheory
