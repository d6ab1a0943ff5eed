import LanguageTheory.Grammar.Basic

/-!
# Derivations

A derivation step applies one production at one place. A word of terminals belongs to the language
of a variable when some number of steps leads from the variable to the word.
-/

namespace LanguageTheory.Grammar

variable {g : Grammar} {u v w : List Char} {m n : Nat}

/-- One production applied at one place. -/
inductive Step (g : Grammar) : List Char → List Char → Prop
  | apply (before after : List Char) {p : Production} (hp : p ∈ g.productions) :
      Step g (before ++ p.lhs :: after) (before ++ p.rhs ++ after)

/-- A derivation of a given number of steps. -/
inductive DerivesIn (g : Grammar) (u : List Char) : Nat → List Char → Prop
  | refl : DerivesIn g u 0 u
  | tail {n : Nat} {v w : List Char} :
      DerivesIn g u n v → Step g v w → DerivesIn g u (n + 1) w

/-- A derivation of any number of steps. -/
def Derives (g : Grammar) (u v : List Char) : Prop := ∃ n, DerivesIn g u n v

/-- A word of terminals only. -/
def IsTerminal (g : Grammar) (w : List Char) : Prop := ∀ c ∈ w, c ∈ g.terminals

/-- The terminal words derived from a variable. -/
def Generates (g : Grammar) (c : Char) (w : List Char) : Prop :=
  g.IsTerminal w ∧ g.Derives [c] w

namespace DerivesIn

theorem trans (huv : DerivesIn g u m v) (hvw : DerivesIn g v n w) : DerivesIn g u (m + n) w := by
  induction hvw with
  | refl => exact huv
  | tail _ hstep ih => exact ih.tail hstep

theorem head (huv : Step g u v) (hvw : DerivesIn g v n w) : DerivesIn g u (n + 1) w := by
  rw [Nat.add_comm]
  exact (refl.tail huv).trans hvw

end DerivesIn

end LanguageTheory.Grammar
