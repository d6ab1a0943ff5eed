import LanguageTheory.Alphabet
import Mathlib.Data.List.Shortlex
import Mathlib.Data.List.Flatten

/-!
# The order of words

Shorter words come before longer ones, and words of one length are in the order of the symbols where
they first differ. The order is kept when symbols are replaced in their order (`shortlex_map`). The
listings of words by length are in it, and each length continues the one before it by one more symbol
at the end.
-/

namespace LanguageTheory

variable {α β : Type} {symbols : List α} {r : α → α → Prop} {s : β → β → Prop} {u v w : List α}
  {k : Nat}

/-! ## Shortlex order -/

theorem shortlex_trans (hr : ∀ {a b c}, r a b → r b c → r a c) (huv : List.Shortlex r u v)
    (hvw : List.Shortlex r v w) : List.Shortlex r u w := by
  rw [List.shortlex_def] at huv hvw ⊢
  rcases huv with huv | ⟨huv, hlex⟩
  · left
    omega
  · rcases hvw with hvw | ⟨hvw, hlex'⟩
    · left
      omega
    · exact .inr ⟨huv.trans hvw, List.lex_trans hr hlex hlex'⟩

/-- Symbols may be replaced by symbols in the same order. -/
theorem shortlex_map {f : α → β} (hf : ∀ a b, r a b → s (f a) (f b)) (h : List.Shortlex r u v) :
    List.Shortlex s (u.map f) (v.map f) := by
  rw [List.shortlex_def] at h ⊢
  rw [List.length_map, List.length_map]
  refine h.imp_right ?_
  rintro ⟨hlength, hlex⟩
  refine ⟨hlength, ?_⟩
  clear h hlength
  induction hlex with
  | nil => exact .nil
  | cons _ ih => exact .cons ih
  | rel hab => exact .rel (hf _ _ hab)

/-! ## Listings of words -/

/-- Longer words are also found by adding the last symbol. -/
theorem wordsOfLength_succ : wordsOfLength symbols (k + 1) =
    (wordsOfLength symbols k).flatMap fun word => symbols.map fun a => word ++ [a] := by
  induction k with
  | zero =>
      rw [wordsOfLength, wordsOfLength, List.flatMap_singleton]
      exact List.map_eq_flatMap.symm
  | succ k ih =>
      calc wordsOfLength symbols (k + 1 + 1)
          = symbols.flatMap fun a => (wordsOfLength symbols (k + 1)).map (a :: ·) := rfl
        _ = symbols.flatMap fun a => ((wordsOfLength symbols k).map (a :: ·)).flatMap fun word =>
              symbols.map fun b => word ++ [b] := by
          rw [ih]
          simp only [List.map_flatMap, List.flatMap_map, List.map_map]
          rfl
        _ = (wordsOfLength symbols (k + 1)).flatMap fun word =>
              symbols.map fun a => word ++ [a] := List.flatMap_assoc.symm

theorem pairwise_wordsOfLength (hsymbols : symbols.Pairwise r) :
    (wordsOfLength symbols k).Pairwise (List.Lex r) := by
  induction k with
  | zero => exact List.pairwise_singleton _ _
  | succ k ih =>
      rw [wordsOfLength, List.pairwise_flatMap]
      constructor
      · intro a _
        rw [List.pairwise_map]
        exact ih.imp .cons
      · refine hsymbols.imp ?_
        intro a b hab u hu v hv
        obtain ⟨u', _, rfl⟩ := List.mem_map.mp hu
        obtain ⟨v', _, rfl⟩ := List.mem_map.mp hv
        exact .rel hab

/-- Words are listed in shortlex order. -/
theorem pairwise_wordsUpTo (hsymbols : symbols.Pairwise r) :
    (wordsUpTo symbols k).Pairwise (List.Shortlex r) := by
  rw [wordsUpTo, List.pairwise_flatMap]
  constructor
  · intro length _
    refine (pairwise_wordsOfLength hsymbols).imp_of_mem ?_
    intro u v hu hv huv
    have hlength : u.length = v.length :=
      (mem_wordsOfLength.mp hu).1.trans (mem_wordsOfLength.mp hv).1.symm
    exact .of_lex hlength huv
  · refine List.pairwise_lt_range.imp ?_
    intro i j hij u hu v hv
    apply List.Shortlex.of_length_lt
    rw [(mem_wordsOfLength.mp hu).1, (mem_wordsOfLength.mp hv).1]
    exact hij

theorem mem_wordsUpTo {word : List α} :
    word ∈ wordsUpTo symbols k ↔ word.length ≤ k ∧ ∀ a ∈ word, a ∈ symbols := by
  simp only [wordsUpTo, List.mem_flatMap, List.mem_range, mem_wordsOfLength]
  constructor
  · rintro ⟨length, hlength, rfl, hsymbols⟩
    exact ⟨Nat.le_of_lt_succ hlength, hsymbols⟩
  · rintro ⟨hlength, hsymbols⟩
    exact ⟨word.length, Nat.lt_succ_of_le hlength, rfl, hsymbols⟩

end LanguageTheory
