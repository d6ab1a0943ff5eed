import LanguageTheory.Numbering

/-!
# Breadth-first discovery

Values reached from a first one are numbered in the order in which a breadth-first search meets
them: layer by layer, and within a layer by the value that leads to them. Successors come in a
fixed order, so the numbering depends on nothing else.
-/

universe u

namespace LanguageTheory.Numbering

variable {σ : Type u} [TotalOrd σ] {next : σ → List σ} {known : Numbering σ} {a : σ}

/-- Adds a number of layers of successors. The values up to `old` have been followed before, the
others make up the last layer. -/
def grow (next : σ → List σ) : Nat → (known : Numbering σ) → (old : Nat) → Numbering σ
  | 0, known, _ => known
  | depth + 1, known, old =>
      let size := known.size
      if old < size then
        let layer := (known.values.extract old size).toList
        grow next depth (known.addAll (layer.flatMap next)) size
      else known

/-- The values reached from `first` in at most `depth` steps. -/
def discover (next : σ → List σ) (depth : Nat) (first : σ) : Numbering σ :=
  grow next depth (ofList [first]) 0

theorem mem_grow_of_mem {depth old : Nat} (ha : a ∈ known) : a ∈ grow next depth known old := by
  induction depth generalizing known old with
  | zero => exact ha
  | succ depth ih =>
      simp only [grow]
      split
      next => exact ih (mem_addAll.mpr (.inr ha))
      next => exact ha

theorem first_mem_discover (next : σ → List σ) (depth : Nat) (first : σ) :
    first ∈ discover next depth first :=
  mem_grow_of_mem (mem_ofList.mpr (List.mem_singleton_self first))

theorem size_discover_pos (next : σ → List σ) (depth : Nat) (first : σ) :
    0 < (discover next depth first).size :=
  size_pos_of_mem (first_mem_discover next depth first)

end LanguageTheory.Numbering
