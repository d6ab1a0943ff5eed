import LanguageTheory.Proofs.NFA.Path

/-!
# Edges of drafts

Which edges a draft has after each operation: adding a state adds none, inserting an edge adds that
one, and a copy has its edges moved behind the own states (`edge_append_iff`). What a sequence of
epsilon edges and final marks adds is the sum of what each adds (`exists_foldlM_extends`).
-/

namespace LanguageTheory.NFA.Draft

variable {α : Type} [TotalOrd α] {b c d other : Draft α} {label : Option α} {p q letter : Nat}

/-! ## Operations -/

theorem not_edge_empty {A : Alphabet α} : ¬ (empty A).Edge p label q := by
  intro h
  exact Nat.not_lt_zero p h.source_lt

theorem targets_addState {letter : Alphabet.Letter b.alphabet} :
    b.addState.targets p letter = b.targets p letter := by
  rcases Nat.lt_trichotomy p b.states with hlt | rfl | hgt
  · have hold := targets_eq b ⟨p, hlt⟩ letter
    have hgrown := targets_eq b.addState ⟨p, Nat.lt_succ_of_lt hlt⟩ letter
    exact hgrown.trans (Table.get_push_lt.trans hold.symm)
  · have hgrown := targets_eq b.addState (Fin.last b.states) letter
    exact (hgrown.trans Table.get_push_last).trans (targets_of_le (Nat.le_refl _)).symm
  · have hgrown : b.addState.states ≤ p := hgt
    rw [targets_of_le hgrown, targets_of_le (Nat.le_of_lt hgt)]

theorem epsilonTargets_addState : b.addState.epsilonTargets p = b.epsilonTargets p := by
  have hgrown : b.addState.epsilonTargets p = (b.epsilon.push ∅)[p]?.getD ∅ := rfl
  rw [hgrown, epsilonTargets, Vector.getElem?_push]
  split
  next hlast => rw [Vector.getElem?_eq_none (Nat.le_of_eq hlast.symm), Option.getD_some,
    Option.getD_none]
  next => rfl

theorem edge_addState_iff : b.addState.Edge p label q ↔ b.Edge p label q := by
  cases label with
  | none => rw [Edge, epsilonTargets_addState, Edge]
  | some a =>
      apply exists_congr
      intro letter
      apply and_congr_right
      intro _
      have hsame : b.addState.targets p letter = b.targets p letter := targets_addState
      exact iff_of_eq (congrArg (q ∈ ·) hsame)

theorem mem_targets_insertEdge {source target : Fin b.states}
    {letter other : Alphabet.Letter b.alphabet} :
    q ∈ (b.insertEdge source letter target).targets p other ↔
      q ∈ b.targets p other ∨ p = source ∧ other = letter ∧ q = target := by
  by_cases hp : p < b.states
  · have hold := targets_eq b ⟨p, hp⟩ other
    have hnew : (b.insertEdge source letter target).targets p other =
        (b.labelled.set source letter (insert target.val (b.labelled.get source letter))).get
          ⟨p, hp⟩ other :=
      targets_eq (b.insertEdge source letter target) ⟨p, hp⟩ other
    by_cases heq : source = ⟨p, hp⟩ ∧ letter = other
    · obtain ⟨rfl, rfl⟩ := heq
      rw [hnew, hold, Table.get_set_eq, SortedSet.mem_insert, or_comm]
      simp
    · rw [hnew, Table.get_set_ne heq, hold]
      refine ⟨.inl, fun h => h.resolve_right ?_⟩
      intro h
      rcases h with ⟨rfl, rfl, _⟩
      exact heq ⟨rfl, rfl⟩
  · have hout : (b.insertEdge source letter target).states ≤ p := Nat.not_lt.mp hp
    rw [targets_of_le hout, targets_of_le (Nat.not_lt.mp hp)]
    refine ⟨.inl, fun h => h.resolve_right ?_⟩
    intro hnew
    exact hp (hnew.1 ▸ source.2)

theorem edge_insertEdge_iff {source target : Fin b.states} {letter : Alphabet.Letter b.alphabet} :
    (b.insertEdge source letter target).Edge p label q ↔
      b.Edge p label q ∨ label = some (b.alphabet.get letter) ∧ p = source ∧ q = target := by
  cases label with
  | none => exact ⟨.inl, fun h => h.resolve_right fun h => by cases h.1⟩
  | some a =>
      constructor
      · intro h
        rcases h with ⟨other, rfl, hq⟩
        rcases mem_targets_insertEdge.mp hq with hold | ⟨hsource, hletter, htarget⟩
        · exact .inl ⟨other, rfl, hold⟩
        · exact .inr ⟨congrArg (some <| b.alphabet.get ·) hletter, hsource, htarget⟩
      · intro h
        rcases h with ⟨other, rfl, hq⟩ | ⟨hlabel, rfl, rfl⟩
        · exact ⟨other, rfl, mem_targets_insertEdge.mpr (.inl hq)⟩
        · exact ⟨letter, (Option.some.inj hlabel).symm,
            mem_targets_insertEdge.mpr (.inr ⟨rfl, rfl, rfl⟩)⟩

theorem exists_addTransition {a : α} (hp : p < b.states) (ha : a ∈ b.alphabet) (hq : q < b.states) :
    ∃ c, b.addTransition ⟨p, a, q⟩ = .ok c ∧ c.alphabet = b.alphabet ∧ c.states = b.states ∧
      c.finals = b.finals ∧
        ∀ s label t, c.Edge s label t ↔ b.Edge s label t ∨ label = some a ∧ s = p ∧ t = q := by
  obtain ⟨letter, rfl⟩ := SortedSet.exists_get_eq ha
  have hrank : b.alphabet.rank? (b.alphabet.get letter) = some letter :=
    SortedSet.rank?_eq_some_iff.mpr rfl
  refine ⟨b.insertEdge ⟨p, hp⟩ letter ⟨q, hq⟩, ?_, rfl, rfl, rfl, fun _ _ _ =>
    edge_insertEdge_iff⟩
  simp only [addTransition, AutomatonFault.requireState, AutomatonFault.requireLetter, dif_pos hp,
    dif_pos hq, hrank]
  rfl

theorem addTransition_of_not_mem {a : α} (hp : p < b.states) (ha : a ∉ b.alphabet)
    (hq : q < b.states) : b.addTransition ⟨p, a, q⟩ = .error (.unknownSymbol a) := by
  have hrank : b.alphabet.rank? a = none := SortedSet.rank?_eq_none_iff.mpr ha
  simp only [addTransition, AutomatonFault.requireState, AutomatonFault.requireLetter, dif_pos hp,
    dif_pos hq, hrank]
  rfl

theorem edge_insertEpsilon_iff {source target : Fin b.states} :
    (b.insertEpsilon source target).Edge p label q ↔
      b.Edge p label q ∨ label = none ∧ p = source ∧ q = target := by
  cases label with
  | none =>
      have hnew : (b.insertEpsilon source target).epsilonTargets p =
          (b.epsilon.set source (insert target.val (b.epsilon.get source)))[p]?.getD ∅ := rfl
      rw [Edge, hnew, Vector.getElem?_set, Edge]
      split
      next hsame =>
        subst hsame
        rw [Option.getD_some, SortedSet.mem_insert, ← epsilonTargets_eq, or_comm]
        simp
      next hother =>
        refine ⟨.inl, fun h => h.resolve_right ?_⟩
        intro h
        rcases h with ⟨_, rfl, _⟩
        exact hother rfl
  | some a => exact ⟨.inl, fun h => h.resolve_right fun h => by cases h.1⟩

theorem edge_insertFinal_iff {state : Fin b.states} :
    (b.insertFinal state).Edge p label q ↔ b.Edge p label q := by
  cases label with
  | none => exact Iff.rfl
  | some a => exact Iff.rfl

/-- The edges of a copy whose states are counted on from `offset`. -/
def Shifted (offset : Nat) (b : Draft α) (p : Nat) (label : Option α) (q : Nat) : Prop :=
  ∃ p' q', b.Edge p' label q' ∧ p = offset + p' ∧ q = offset + q'

theorem shifted_zero_iff : Shifted 0 b p label q ↔ b.Edge p label q := by
  simp [Shifted]

theorem mem_shift {offset : Nat} {s : SortedSet Nat} :
    q ∈ shift offset s ↔ ∃ q' ∈ s, q = offset + q' := by
  simp only [shift, SortedSet.mem_image, eq_comm]

/-- The targets of a state, taken from the own states or else from the copied ones. -/
theorem mem_ite_shift (own copied : Nat → SortedSet Nat) {offset : Nat}
    (hown : ∀ p, offset ≤ p → own p = ∅) :
    q ∈ (if p < offset then own p else shift offset (copied (p - offset))) ↔
      q ∈ own p ∨ ∃ p' q', q' ∈ copied p' ∧ p = offset + p' ∧ q = offset + q' := by
  split
  next hlt =>
    refine ⟨.inl, fun h => h.resolve_right ?_⟩
    intro h
    rcases h with ⟨p', q', _, rfl, _⟩
    omega
  next hge =>
    rw [mem_shift, hown p (Nat.not_lt.mp hge)]
    constructor
    · intro h
      rcases h with ⟨q', hq', rfl⟩
      exact .inr ⟨p - offset, q', hq', by omega, rfl⟩
    · intro h
      rcases h with hold | ⟨p', q', hq', rfl, rfl⟩
      · exact absurd hold (SortedSet.not_mem_empty q)
      · rw [Nat.add_sub_cancel_left]
        exact ⟨q', hq', rfl⟩

theorem targets_append {letter : Alphabet.Letter b.alphabet} :
    (b.append other).targets p letter = if p < b.states then b.targets p letter
      else shift b.states (other.targets (p - b.states) letter) := by
  by_cases hp : p < b.states + other.states
  · exact (targets_eq (b.append other) ⟨p, hp⟩ letter).trans Table.get_ofFn
  · have hout : (b.append other).states ≤ p := Nat.not_lt.mp hp
    rw [targets_of_le hout, if_neg (by omega), targets_of_le (by omega)]
    rfl

theorem mem_targets_append {letter : Alphabet.Letter b.alphabet} :
    q ∈ (b.append other).targets p letter ↔ q ∈ b.targets p letter ∨
      ∃ p' q', q' ∈ other.targets p' letter ∧ p = b.states + p' ∧ q = b.states + q' := by
  rw [targets_append]
  exact mem_ite_shift (fun p => b.targets p letter) (fun p => other.targets p letter)
    fun p hp => targets_of_le hp

theorem epsilonTargets_append : (b.append other).epsilonTargets p =
    if p < b.states then b.epsilonTargets p
    else shift b.states (other.epsilonTargets (p - b.states)) := by
  by_cases hp : p < b.states + other.states
  · exact (epsilonTargets_eq (b.append other) ⟨p, hp⟩).trans (Vector.getElem_ofFn hp)
  · have hout : (b.append other).states ≤ p := Nat.not_lt.mp hp
    rw [epsilonTargets_of_le hout, if_neg (by omega), epsilonTargets_of_le (by omega)]
    rfl

theorem edge_append_iff (halphabet : other.alphabet = b.alphabet) :
    (b.append other).Edge p label q ↔ b.Edge p label q ∨ Shifted b.states other p label q := by
  cases label with
  | none =>
      rw [Edge, epsilonTargets_append]
      exact mem_ite_shift b.epsilonTargets other.epsilonTargets fun p hp =>
        epsilonTargets_of_le hp
  | some a =>
      -- a letter is a rank in its alphabet, so the two alphabets are made one first
      obtain ⟨A, states, labelled, epsilon, finals, hlabelled, hepsilon, hfinals⟩ := other
      obtain rfl : A = b.alphabet := halphabet
      constructor
      · intro h
        rcases h with ⟨letter, rfl, hq⟩
        rcases mem_targets_append.mp hq with hold | ⟨p', q', hq', rfl, rfl⟩
        · exact .inl ⟨letter, rfl, hold⟩
        · exact .inr ⟨p', q', ⟨letter, rfl, hq'⟩, rfl, rfl⟩
      · intro h
        rcases h with ⟨letter, rfl, hq⟩ | ⟨p', q', ⟨letter, rfl, hq'⟩, rfl, rfl⟩
        · exact ⟨letter, rfl, mem_targets_append.mpr (.inl hq)⟩
        · exact ⟨letter, rfl, mem_targets_append.mpr (.inr ⟨p', q', hq', rfl, rfl⟩)⟩

/-- A draft is spliced behind another one over the same alphabet. -/
theorem exists_splice (b other : Draft α) (halphabet : other.alphabet = b.alphabet) :
    ∃ c, b.splice other = .ok c ∧
      c.alphabet = b.alphabet ∧ c.states = b.states + other.states ∧ c.finals = b.finals ∧
        ∀ p label q, c.Edge p label q ↔ b.Edge p label q ∨ Shifted b.states other p label q :=
  ⟨b.append other, if_pos halphabet, rfl, rfl, rfl, fun _ _ _ => edge_append_iff halphabet⟩

/-! ## Sequences of operations -/

/-- A draft with the same states as another one, and some epsilon edges and final marks more. -/
structure Extends (c b : Draft α) (edges : Nat → Nat → Prop) (marks : Nat → Prop) : Prop where
  alphabet_eq : c.alphabet = b.alphabet
  states_eq : c.states = b.states
  edge_iff : ∀ p label q, c.Edge p label q ↔ b.Edge p label q ∨ label = none ∧ edges p q
  mem_finals_iff : ∀ p, p ∈ c.finals ↔ p ∈ b.finals ∨ marks p

section Extends

variable {edges edges' : Nat → Nat → Prop} {marks marks' : Nat → Prop}

theorem Extends.trans (hc : c.Extends b edges marks) (hd : d.Extends c edges' marks') :
    d.Extends b (fun p q => edges p q ∨ edges' p q) (fun p => marks p ∨ marks' p) where
  alphabet_eq := hd.alphabet_eq.trans hc.alphabet_eq
  states_eq := hd.states_eq.trans hc.states_eq
  edge_iff p label q := by rw [hd.edge_iff, hc.edge_iff, or_assoc, ← and_or_left]
  mem_finals_iff p := by rw [hd.mem_finals_iff, hc.mem_finals_iff, or_assoc]

theorem exists_addEpsilon (hp : p < b.states) (hq : q < b.states) : ∃ c, b.addEpsilon p q = .ok c ∧
    c.Extends b (fun s t => s = p ∧ t = q) (fun _ => False) := by
  refine ⟨b.insertEpsilon ⟨p, hp⟩ ⟨q, hq⟩, ?_, ?_⟩
  · simp only [addEpsilon, AutomatonFault.requireState, dif_pos hp, dif_pos hq]
    rfl
  · refine ⟨rfl, rfl, fun _ _ _ => edge_insertEpsilon_iff, fun s => ?_⟩
    rw [or_false]
    exact Iff.rfl

theorem exists_markFinal (hp : p < b.states) : ∃ c, b.markFinal p = .ok c ∧
    c.Extends b (fun _ _ => False) (fun s => s = p) := by
  refine ⟨b.insertFinal ⟨p, hp⟩, ?_, ?_⟩
  · simp only [markFinal, AutomatonFault.requireState, dif_pos hp]
    rfl
  · refine ⟨rfl, rfl, fun s label t => ?_, fun s => ?_⟩
    · rw [and_false, or_false]
      exact edge_insertFinal_iff
    · rw [or_comm]
      exact SortedSet.mem_insert

/-- Operations that extend a draft one after the other extend it by all that they add. -/
theorem exists_foldlM_extends {ε : Type} (body : Draft α → Nat → Except ε (Draft α))
    {edges : Nat → Nat → Nat → Prop} {marks : Nat → Nat → Prop} (b : Draft α) (xs : List Nat)
    (hbody : ∀ x ∈ xs, ∀ c : Draft α, c.states = b.states →
      ∃ d, body c x = .ok d ∧ d.Extends c (edges x) (marks x)) :
    ∃ c, xs.foldlM body b = .ok c ∧
      c.Extends b (fun p q => ∃ x ∈ xs, edges x p q) (fun p => ∃ x ∈ xs, marks x p) := by
  induction xs generalizing b with
  | nil =>
      refine ⟨b, rfl, rfl, rfl, ?_, ?_⟩
      · intro p label q
        simp
      · intro p
        simp
  | cons x xs ih =>
      obtain ⟨c, hc, hextends⟩ := hbody x List.mem_cons_self b rfl
      obtain ⟨d, hd, hrest⟩ := ih c fun y hy e he =>
        hbody y (List.mem_cons_of_mem x hy) e (he.trans hextends.states_eq)
      have hboth := hextends.trans hrest
      refine ⟨d, ?_, hboth.alphabet_eq, hboth.states_eq, ?_, ?_⟩
      · rw [List.foldlM_cons, hc]
        exact hd
      · intro p label q
        rw [hboth.edge_iff, List.exists_mem_cons_iff]
      · intro p
        rw [hboth.mem_finals_iff, List.exists_mem_cons_iff]

end Extends

end LanguageTheory.NFA.Draft
