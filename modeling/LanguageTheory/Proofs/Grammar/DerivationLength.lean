import LanguageTheory.Proofs.Grammar.Yields

/-!
# Lengths of derivations

A derivation of a terminal word applies as many productions in whatever order it does so. `YieldsIn`
counts them along the form, symbol by symbol, and `yieldsIn_iff` says that the count is the length of
a derivation.
-/

namespace LanguageTheory.Grammar

variable {g : Grammar} {u v w : List Char} {c : Char} {m n : Nat}

theorem DerivesIn.context (h : g.DerivesIn u n v) (before after : List Char) :
    g.DerivesIn (before ++ u ++ after) n (before ++ v ++ after) := by
  induction h with
  | refl => exact .refl
  | tail _ hstep ih => exact ih.tail (hstep.context before after)

/-- The terminal words of a form, with the number of productions that they take. -/
inductive YieldsIn (g : Grammar) : List Char → Nat → List Char → Prop
  | nil : YieldsIn g [] 0 []
  | terminal {c : Char} {rest w : List Char} {n : Nat} :
      c ∈ g.terminals → YieldsIn g rest n w → YieldsIn g (c :: rest) n (c :: w)
  | production {c : Char} {rhs rest v w : List Char} {m n : Nat} :
      ⟨c, rhs⟩ ∈ g.productions → YieldsIn g rhs m v → YieldsIn g rest n w →
        YieldsIn g (c :: rest) (m + n + 1) (v ++ w)

namespace YieldsIn

theorem yields (h : g.YieldsIn u n w) : g.Yields u w := by
  induction h with
  | nil => exact .nil
  | terminal hc _ ih => exact .terminal hc ih
  | production hp _ _ ihrhs ihrest => exact .production hp ihrhs ihrest

theorem self (hw : g.IsTerminal w) : g.YieldsIn w 0 w := by
  induction w with
  | nil => exact .nil
  | cons c w ih =>
      apply YieldsIn.terminal (hw c List.mem_cons_self)
      exact ih fun d hd => hw d (List.mem_cons_of_mem c hd)

theorem append {w' : List Char} (hu : g.YieldsIn u m w) (hv : g.YieldsIn v n w') :
    g.YieldsIn (u ++ v) (m + n) (w ++ w') := by
  induction hu with
  | nil => rwa [Nat.zero_add]
  | terminal hc _ ih => exact .terminal hc ih
  | @production c rhs rest v w k l hp hrhs _ _ ih =>
      have hcount : k + l + 1 + n = k + (l + n) + 1 := by omega
      rw [List.append_assoc, hcount]
      exact .production hp hrhs ih

/-- The word and the count of two forms in a row are cut where the first form ends. -/
theorem split (h : g.YieldsIn (u ++ v) n w) :
    ∃ first second k l, w = first ++ second ∧ n = k + l ∧ g.YieldsIn u k first ∧
      g.YieldsIn v l second := by
  induction u generalizing n w with
  | nil => exact ⟨[], w, 0, n, rfl, (Nat.zero_add n).symm, .nil, h⟩
  | cons c u ih =>
      cases h with
      | terminal hc hrest =>
          obtain ⟨first, second, k, l, rfl, rfl, hfirst, hsecond⟩ := ih hrest
          exact ⟨c :: first, second, k, l, rfl, rfl, .terminal hc hfirst, hsecond⟩
      | @production _ _ _ _ _ i _ hp hrhs hrest =>
          obtain ⟨first, second, k, l, rfl, rfl, hfirst, hsecond⟩ := ih hrest
          refine ⟨_ ++ first, second, i + k + 1, l, ?_, ?_, .production hp hrhs hfirst, hsecond⟩
          · rw [List.append_assoc]
          · omega

theorem of_step (hstep : g.Step u v) (h : g.YieldsIn v n w) : g.YieldsIn u (n + 1) w := by
  cases hstep with
  | apply before after hp =>
      obtain ⟨first, last, k, l, rfl, rfl, hfirst, hlast⟩ := h.split
      obtain ⟨start, middle, i, j, rfl, rfl, hstart, hmiddle⟩ := hfirst.split
      have hcount : i + j + l + 1 = i + (j + l + 1) := by omega
      rw [List.append_assoc, hcount]
      exact hstart.append (.production hp hmiddle hlast)

theorem of_derivesIn (hderives : g.DerivesIn u m v) (h : g.YieldsIn v n w) :
    g.YieldsIn u (m + n) w := by
  induction hderives generalizing n with
  | refl => rwa [Nat.zero_add]
  | @tail k v' w' _ hstep ih =>
      rw [Nat.add_assoc, Nat.add_comm 1 n]
      exact ih (.of_step hstep h)

theorem derivesIn (h : g.YieldsIn u n w) : g.DerivesIn u n w := by
  induction h with
  | nil => exact .refl
  | @terminal c rest w n _ _ ih =>
      have hcontext := ih.context [c] []
      rwa [List.append_nil, List.append_nil] at hcontext
  | @production c rhs rest v w m n hp _ _ ihv ihw =>
      have hleft : g.DerivesIn (rhs ++ rest) m (v ++ rest) := ihv.context [] rest
      have hright : g.DerivesIn (v ++ rest) n (v ++ w) := by
        have hcontext := ihw.context v []
        rwa [List.append_nil, List.append_nil] at hcontext
      exact (hleft.trans hright).head (.apply [] rest hp)

end YieldsIn

/-- A form yields a word in as many productions as some derivation of it has steps. -/
theorem yieldsIn_iff : g.YieldsIn u n w ↔ g.IsTerminal w ∧ g.DerivesIn u n w := by
  constructor
  · intro h
    exact ⟨h.yields.isTerminal, h.derivesIn⟩
  · rintro ⟨hterminal, hderives⟩
    exact .of_derivesIn hderives (.self hterminal)

theorem exists_yieldsIn_iff : (∃ n, g.YieldsIn u n w) ↔ g.Yields u w := by
  rw [yields_iff, Derives]
  simp only [yieldsIn_iff, exists_and_left]

end LanguageTheory.Grammar
