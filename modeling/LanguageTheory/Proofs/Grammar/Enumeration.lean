import LanguageTheory.Grammar.Enumeration
import LanguageTheory.Proofs.Grammar.DerivationLength
import LanguageTheory.Proofs.Grammar.Membership
import LanguageTheory.Proofs.Numbering.Discovery
import Mathlib.Data.List.Shortlex

/-!
# Enumerated words

The words within a depth are those of derivations of at most as many steps (`mem_produce_iff`). Only
leftmost steps are taken, and a form is expanded once, at its least depth; neither loses a word,
because every derivation can be rearranged to one of leftmost steps of the same length. The words
stand in shortlex order (`produce_exact`). In normal form all derivations of a word have one length,
which makes the depth of a member exact.
-/

namespace LanguageTheory

theorem ShortlexWord.ofChars_injective : Function.Injective ShortlexWord.ofChars := fun _ _ h =>
  congrArg ShortlexWord.chars h

namespace Grammar

variable {g : Grammar} {u v w before after : List Char} {c : Char} {n depth : Nat}

/-! ## Leftmost steps -/

theorem splitAtVariable_eq_some_iff : g.splitAtVariable u = some (before, c, after) ↔
    u = before ++ c :: after ∧ (∀ d ∈ before, d ∉ g.vars) ∧ c ∈ g.vars := by
  induction u generalizing before with
  | nil => simp [splitAtVariable]
  | cons d u ih =>
      unfold splitAtVariable
      by_cases hd : d ∈ g.vars
      · rw [if_pos hd, Option.some.injEq, Prod.mk.injEq, Prod.mk.injEq]
        constructor
        · rintro ⟨rfl, rfl, rfl⟩
          exact ⟨rfl, fun e he => absurd he List.not_mem_nil, hd⟩
        · rintro ⟨hu, hbefore, _⟩
          cases before with
          | nil =>
              obtain ⟨hhead, htail⟩ := List.cons.inj hu
              exact ⟨rfl, hhead, htail⟩
          | cons e before =>
              obtain ⟨rfl, _⟩ := List.cons.inj hu
              exact absurd hd (hbefore d List.mem_cons_self)
      · rw [if_neg hd, Option.map_eq_some_iff]
        constructor
        · rintro ⟨⟨before, head, after⟩, hsplit, heq⟩
          simp only [Prod.mk.injEq] at heq
          obtain ⟨rfl, rfl, rfl⟩ := heq
          obtain ⟨rfl, hbefore, hhead⟩ := ih.mp hsplit
          exact ⟨rfl, List.forall_mem_cons.mpr ⟨hd, hbefore⟩, hhead⟩
        · rintro ⟨hu, hbefore, hc⟩
          cases before with
          | nil =>
              obtain ⟨rfl, _⟩ := List.cons.inj hu
              exact absurd hc hd
          | cons e before =>
              obtain ⟨rfl, rfl⟩ := List.cons.inj hu
              obtain ⟨_, hbefore⟩ := List.forall_mem_cons.mp hbefore
              exact ⟨(before, c, after), ih.mpr ⟨rfl, hbefore, hc⟩, rfl⟩

/-- A leftmost step replaces the first variable by one of its productions. -/
theorem mem_leftmostSuccessors : v ∈ g.leftmostSuccessors u ↔
    ∃ before after, ∃ p ∈ g.productions, u = before ++ p.lhs :: after ∧
      (∀ d ∈ before, d ∉ g.vars) ∧ v = before ++ p.rhs ++ after := by
  unfold leftmostSuccessors
  constructor
  · intro hv
    split at hv
    next => exact absurd hv List.not_mem_nil
    next before head after hsplit =>
      obtain ⟨rfl, hbefore, _⟩ := splitAtVariable_eq_some_iff.mp hsplit
      obtain ⟨p, hp, rfl⟩ := List.mem_map.mp hv
      obtain ⟨hmem, rfl⟩ := mem_productionsOf.mp hp
      exact ⟨before, after, p, hmem, rfl, hbefore, rfl⟩
  · rintro ⟨before, after, p, hp, rfl, hbefore, rfl⟩
    rw [splitAtVariable_eq_some_iff.mpr ⟨rfl, hbefore, g.lhs_mem p hp⟩]
    exact List.mem_map.mpr ⟨p, mem_productionsOf.mpr ⟨hp, rfl⟩, rfl⟩

theorem step_of_mem_leftmostSuccessors (hv : v ∈ g.leftmostSuccessors u) : g.Step u v := by
  obtain ⟨before, after, p, hp, rfl, _, rfl⟩ := mem_leftmostSuccessors.mp hv
  exact .apply before after hp

/-- A derivation can begin at the leftmost variable, and is as long then. -/
theorem YieldsIn.exists_leftmostSuccessor (h : g.YieldsIn u (n + 1) w) :
    ∃ v ∈ g.leftmostSuccessors u, g.YieldsIn v n w := by
  generalize hcount : n + 1 = count at h
  induction h generalizing n with
  | nil => cases hcount
  | @terminal d rest w _ hd _ ih =>
      obtain ⟨v, hv, hyields⟩ := ih hcount
      obtain ⟨before, after, p, hp, rfl, hbefore, rfl⟩ := mem_leftmostSuccessors.mp hv
      refine ⟨d :: (before ++ p.rhs ++ after), mem_leftmostSuccessors.mpr ?_, .terminal hd hyields⟩
      have hnone : ∀ e ∈ d :: before, e ∉ g.vars :=
        List.forall_mem_cons.mpr ⟨g.disjoint d hd, hbefore⟩
      exact ⟨d :: before, after, p, hp, rfl, hnone, rfl⟩
  | @production d rhs rest v w _ _ hp hrhs hrest =>
      cases hcount
      refine ⟨rhs ++ rest, mem_leftmostSuccessors.mpr ?_, hrhs.append hrest⟩
      exact ⟨[], rest, ⟨d, rhs⟩, hp, rfl, fun e he => absurd he List.not_mem_nil, rfl⟩

/-- A form without productions left to apply is its own word. -/
theorem YieldsIn.eq_of_zero (h : g.YieldsIn u 0 w) : u = w := by
  generalize hcount : 0 = count at h
  induction h with
  | nil => rfl
  | terminal _ _ ih => rw [ih hcount]
  | production => omega

/-! ## Layers of forms -/

theorem mem_layer_of_yieldsIn (h : g.YieldsIn u n w) :
    w ∈ Numbering.layer g.leftmostSuccessors u n := by
  induction n generalizing u with
  | zero =>
      rw [h.eq_of_zero]
      exact List.mem_singleton_self w
  | succ n ih =>
      obtain ⟨v, hv, hyields⟩ := h.exists_leftmostSuccessor
      exact Numbering.mem_layer_succ_iff.mpr ⟨v, hv, ih hyields⟩

/-- A form of symbols of the grammar. -/
def IsForm (g : Grammar) (u : List Char) : Prop := ∀ c ∈ u, c ∈ g.vars ∨ c ∈ g.terminals

theorem IsForm.of_step (hu : g.IsForm u) (hstep : g.Step u v) : g.IsForm v := by
  cases hstep with
  | @apply before after p hp =>
      intro c hc
      simp only [List.mem_append] at hc
      rcases hc with (hbefore | hrhs) | hafter
      · exact hu c (List.mem_append_left _ hbefore)
      · exact g.rhs_mem p hp c hrhs
      · exact hu c (List.mem_append_right _ (List.mem_cons_of_mem _ hafter))

theorem yieldsIn_of_mem_layer (hu : g.IsForm u) (hw : ∀ c ∈ w, c ∉ g.vars)
    (h : w ∈ Numbering.layer g.leftmostSuccessors u n) : g.YieldsIn u n w := by
  induction n generalizing u with
  | zero =>
      obtain rfl := List.mem_singleton.mp h
      exact .self fun c hc => (hu c hc).resolve_left (hw c hc)
  | succ n ih =>
      obtain ⟨v, hv, hlayer⟩ := Numbering.mem_layer_succ_iff.mp h
      have hstep := step_of_mem_leftmostSuccessors hv
      exact .of_step hstep (ih (hu.of_step hstep) hlayer)

/-! ## Words within a depth -/

theorem ofChars_mem_formsWithin_iff : .ofChars w ∈ g.formsWithin depth ↔
    ∃ k ≤ depth, w ∈ Numbering.layer g.leftmostSuccessors [g.start] k := by
  have hforms : ∀ k, Numbering.layer
      (fun form => (g.leftmostSuccessors form.chars).map ShortlexWord.ofChars)
      (ShortlexWord.ofChars [g.start]) k =
        (Numbering.layer g.leftmostSuccessors [g.start] k).map ShortlexWord.ofChars := by
    intro k
    exact Numbering.layer_map fun form => rfl
  simp only [formsWithin, Numbering.mem_discover_iff_exists_le, hforms,
    List.mem_map_of_injective ShortlexWord.ofChars_injective]

theorem mem_produce_iff_mem_wordsWithin :
    w ∈ g.produce depth ↔ .ofChars w ∈ g.wordsWithin depth := by
  rw [produce, List.mem_map]
  constructor
  · rintro ⟨form, hform, rfl⟩
    have hsame : ShortlexWord.ofChars form.chars = form := ShortlexWord.ext rfl
    rw [hsame]
    exact hform
  · intro hw
    exact ⟨.ofChars w, hw, rfl⟩

theorem mem_wordsWithin_iff : .ofChars w ∈ g.wordsWithin depth ↔
    (.ofChars w ∈ g.formsWithin depth ∧ ∀ c ∈ w, c ∉ g.vars) ∨ w = [] ∧ g.acceptsEmpty := by
  have hderived : ShortlexWord.ofChars w ∈ SortedSet.ofList ((g.formsWithin depth).toList.filter
      fun form => form.chars.all fun c => c ∉ g.vars) ↔
        .ofChars w ∈ g.formsWithin depth ∧ ∀ c ∈ w, c ∉ g.vars := by
    simp [Numbering.mem_toList]
  have hempty : ShortlexWord.ofChars w = .ofChars [] ↔ w = [] := by
    constructor
    · intro h
      exact congrArg ShortlexWord.chars h
    · rintro rfl
      rfl
  dsimp only [wordsWithin]
  split
  next hflag => rw [SortedSet.mem_insert, hderived, hempty, or_comm, and_iff_left hflag]
  next hflag => rw [hderived, or_iff_left fun h => hflag h.2]

/-- The words within a depth are those of derivations of at most as many steps, taken in whatever
order, and the empty word as the grammar says. -/
theorem mem_produce_iff : w ∈ g.produce depth ↔
    (∃ k ≤ depth, g.YieldsIn [g.start] k w) ∨ w = [] ∧ g.acceptsEmpty := by
  have hstart : g.IsForm [g.start] := by
    intro c hc
    rw [List.mem_singleton.mp hc]
    exact .inl g.start_mem
  rw [mem_produce_iff_mem_wordsWithin, mem_wordsWithin_iff, ofChars_mem_formsWithin_iff]
  apply or_congr_left
  constructor
  · rintro ⟨⟨k, hk, hlayer⟩, hw⟩
    exact ⟨k, hk, yieldsIn_of_mem_layer hstart hw hlayer⟩
  · rintro ⟨k, hk, hyields⟩
    refine ⟨⟨k, hk, mem_layer_of_yieldsIn hyields⟩, fun c hc => ?_⟩
    exact g.disjoint c (hyields.yields.isTerminal c hc)

/-! ## Order of words -/

/-- Words are compared by their lengths, and words of one length lexicographically. -/
theorem below_iff_shortlex {v w : ShortlexWord} :
    Below v w ↔ List.Shortlex (· < ·) v.chars w.chars := by
  obtain ⟨_, v, rfl⟩ := v
  obtain ⟨_, w, rfl⟩ := w
  have hchars : Below v w ↔ List.Lex (· < ·) v w := Below.chars_iff
  have hlengths : compare v.length w.length = .lt ↔ v.length < w.length := Nat.compare_eq_lt
  have hsplit : Below (ShortlexWord.mk v.length v rfl) ⟨w.length, w, rfl⟩ ↔
      compare v.length w.length = .lt ∨ compare v.length w.length = .eq ∧ Below v w :=
    Ordering.then_eq_lt
  rw [List.shortlex_def, hsplit, hlengths, Nat.compare_eq_eq, hchars]

theorem pairwise_produce (g : Grammar) (depth : Nat) :
    (g.produce depth).Pairwise (List.Shortlex (· < ·)) := by
  rw [produce, List.pairwise_map]
  exact (g.wordsWithin depth).sorted.imp below_iff_shortlex.mp

theorem nodup_produce (g : Grammar) (depth : Nat) : (g.produce depth).Nodup := by
  rw [produce, List.Nodup, List.pairwise_map]
  refine (g.wordsWithin depth).sorted.imp ?_
  intro v w hbelow hsame
  exact hbelow.ne (ShortlexWord.ext hsame)

/-- The words within a depth are listed once each, in shortlex order. They are the terminal words
that derivations of at most so many steps, taken in whatever order, make of the start variable, and
the empty word as the grammar says. -/
theorem produce_exact (g : Grammar) (depth : Nat) :
    (g.produce depth).Pairwise (List.Shortlex (· < ·)) ∧ (g.produce depth).Nodup ∧
      ∀ w, w ∈ g.produce depth ↔
        (g.IsTerminal w ∧ ∃ k ≤ depth, g.DerivesIn [g.start] k w) ∨ w = [] ∧ g.acceptsEmpty := by
  refine ⟨g.pairwise_produce depth, g.nodup_produce depth, ?_⟩
  intro w
  rw [mem_produce_iff]
  apply or_congr_left
  simp only [yieldsIn_iff]
  constructor
  · rintro ⟨k, hk, hterminal, hderives⟩
    exact ⟨hterminal, k, hk, hderives⟩
  · rintro ⟨hterminal, k, hk, hderives⟩
    exact ⟨k, hk, hterminal, hderives⟩

example : pairs.produce 7 = [[], ['a', 'b'], ['a', 'b', 'a', 'b']] := by decide +kernel

/-! ## Normal form -/

/-- Variables weigh one and other symbols two. In normal form a form takes twice the length of its
word, less its weight, in productions. -/
def weight (g : Grammar) (u : List Char) : Nat := (u.map fun c => if c ∈ g.vars then 1 else 2).sum

theorem weight_cons (c : Char) (u : List Char) :
    g.weight (c :: u) = (if c ∈ g.vars then 1 else 2) + g.weight u := rfl

/-- Right-hand sides in normal form have one weight. -/
theorem weight_of_isNormal {p : Production} (hp : g.isNormal p) : g.weight p.rhs = 2 := by
  rcases isNormal_iff.mp hp with ⟨d, hd, hrhs⟩ | ⟨a, ha, b, hb, hrhs⟩
  · simp [hrhs, weight, hd]
  · simp [hrhs, weight, ha, hb]

/-- All derivations of a word in normal form have one length. -/
theorem YieldsIn.add_weight (hform : ∀ p ∈ g.productions, g.isNormal p) (h : g.YieldsIn u n w) :
    n + g.weight u = 2 * w.length := by
  induction h with
  | nil => rfl
  | terminal hc _ ih =>
      rw [weight_cons, if_neg (g.disjoint _ hc), List.length_cons]
      omega
  | @production c rhs rest v w m n hp _ _ ihrhs ihrest =>
      have hc : c ∈ g.vars := g.lhs_mem _ hp
      have hrhs : g.weight rhs = 2 := weight_of_isNormal (hform _ hp)
      rw [weight_cons, if_pos hc, List.length_append]
      omega

/-- In normal form a word is enumerated within a depth exactly when it is a member and the depth is
that of its derivations, one less than twice its length; the empty word takes no step. -/
theorem mem_produce_iff_isMember (hform : g.isChomskyForm) (w : List Char) (depth : Nat) :
    w ∈ g.produce depth ↔ g.isMember w = .ok true ∧ (w = [] ∨ 2 * w.length - 1 ≤ depth) := by
  have hnormal := isChomskyForm_iff.mp hform
  have hlength : ∀ k, g.YieldsIn [g.start] k w → k + 1 = 2 * w.length := by
    intro k hyields
    have hweight : g.weight [g.start] = 1 := by simp [weight, g.start_mem]
    rw [← hweight]
    exact hyields.add_weight hnormal
  rw [mem_produce_iff, isMember_eq_ok_iff hnormal, ← exists_yieldsIn_iff]
  simp only [true_iff]
  constructor
  · rintro (⟨k, hk, hyields⟩ | hempty)
    · have hword := hlength k hyields
      have hne : w ≠ [] := by
        rintro rfl
        exact Nat.succ_ne_zero k hword
      exact ⟨.inl ⟨hne, k, hyields⟩, .inr (by omega)⟩
    · exact ⟨.inr hempty, .inl hempty.1⟩
  · rintro ⟨⟨hne, k, hyields⟩ | hempty, hdepth⟩
    · have hword := hlength k hyields
      have hbound := hdepth.resolve_left hne
      exact .inl ⟨k, by omega, hyields⟩
    · exact .inr hempty

theorem mem_produce_iff_isMember_pairs : pairs.isChomskyForm ∧
    ['a', 'b', 'a', 'b'] ∈ pairs.produce 7 ∧ ['a', 'b', 'a', 'b'] ∉ pairs.produce 6 ∧
      [] ∈ pairs.produce 0 := by
  have hform : pairs.isChomskyForm := by decide
  have hpair : pairs.Yields ['S'] ['a', 'b'] :=
    .of_production (by decide : ⟨'S', ['A', 'B']⟩ ∈ pairs.productions)
      (.production (by decide : ⟨'A', ['a']⟩ ∈ pairs.productions) (.self (by decide))
        (.of_production (by decide : ⟨'B', ['b']⟩ ∈ pairs.productions) (.self (by decide))))
  have hpairs : pairs.Yields ['S'] ['a', 'b', 'a', 'b'] :=
    .of_production (by decide : ⟨'S', ['S', 'S']⟩ ∈ pairs.productions) (hpair.append hpair)
  have hmember : pairs.isMember ['a', 'b', 'a', 'b'] = .ok true :=
    (isMember_eq_ok_iff (isChomskyForm_iff.mp hform)).mpr
      (iff_of_true rfl (.inl ⟨List.cons_ne_nil _ _, hpairs⟩))
  refine ⟨hform, ?_, ?_, ?_⟩
  · exact (mem_produce_iff_isMember hform _ 7).mpr ⟨hmember, .inr (Nat.le_refl 7)⟩
  · intro hmem
    have hdepth := ((mem_produce_iff_isMember hform _ 6).mp hmem).2
    exact absurd hdepth (by decide)
  · exact (mem_produce_iff_isMember hform _ 0).mpr ⟨rfl, .inl rfl⟩

end Grammar

end LanguageTheory
