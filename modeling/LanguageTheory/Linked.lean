/-!
# Chains of steps

What a step relation leads to when it is followed any number of times.
-/

universe u

namespace LanguageTheory

/-- `Linked step a b`: some number of steps leads from `a` to `b`. -/
inductive Linked {α : Type u} (step : α → α → Prop) (a : α) : α → Prop
  | refl : Linked step a a
  | tail {b c : α} : Linked step a b → step b c → Linked step a c

namespace Linked

variable {α : Type u} {step : α → α → Prop} {a b c : α}

theorem trans (hab : Linked step a b) (hbc : Linked step b c) : Linked step a c := by
  induction hbc with
  | refl => exact hab
  | tail _ hc ih => exact ih.tail hc

theorem head (hb : step a b) (hbc : Linked step b c) : Linked step a c :=
  (refl.tail hb).trans hbc

end Linked

end LanguageTheory
