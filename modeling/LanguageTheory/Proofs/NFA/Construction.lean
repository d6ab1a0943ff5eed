import LanguageTheory.Proofs.DFA.Construction
import LanguageTheory.Proofs.NFA.Edges

/-!
# Construction from edges, and its first fault

The edges of a draft are those that have been listed so far (`Drawn`): an edge that is added changes
no other one. So the faults of a description are those of its first edge out of range or on an unknown
symbol, first among the labelled edges, then among the epsilon edges, then among the final states, and
only then that there is no state. An automaton is determined by its edges and final states
(`eq_of_edge_iff`), so the order of the lists and repetitions in them never matter
(`construction_exact`).
-/

namespace LanguageTheory.NFA

open AutomatonFault Draft
open LanguageTheory.DFA (FinalFault faultless_finals_iff)

variable {α : Type} [TotalOrd α] {A : Alphabet α} {states : Nat} {edges edges' : List (Transition α)}
  {epsilon epsilon' : List (Nat × Nat)} {finals finals' : List Nat} {fault : AutomatonFault α}
  {b c : Draft α} {p q : Nat} {a : α}

/-! ## Drafts and their edges -/

theorem toDraft_inj {m n : NFA α} (h : m.toDraft = n.toDraft) : m = n := by
  cases m
  cases n
  simp_all

theorem edge_get_iff {letter : Alphabet.Letter b.alphabet} :
    b.Edge p (some (b.alphabet.get letter)) q ↔ q ∈ b.targets p letter := by
  constructor
  · intro hedge
    obtain ⟨other, hother, hq⟩ := hedge
    rwa [← SortedSet.get_inj hother]
  · intro hq
    exact ⟨letter, rfl, hq⟩

/-- A draft is determined by its alphabet, its states, its edges and its final states. -/
theorem eq_of_edge_iff (halphabet : c.alphabet = b.alphabet) (hstates : c.states = b.states)
    (hedge : ∀ p label q, c.Edge p label q ↔ b.Edge p label q) (hfinals : c.finals = b.finals) :
    c = b := by
  have htargets (p : Fin b.states) (letter : Alphabet.Letter b.alphabet) (q : Nat) :
      q ∈ b.labelled.get p letter ↔ c.Edge p (some (b.alphabet.get letter)) q := by
    rw [hedge, edge_get_iff, targets_eq]
  have hepsilon (p : Nat) (q : Nat) : q ∈ b.epsilon[p]?.getD ∅ ↔ q ∈ c.epsilon[p]?.getD ∅ :=
    (hedge p none q).symm
  obtain ⟨A, states, labelled, epsilon, finals, _, _, _⟩ := b
  obtain ⟨A', states', labelled', epsilon', finals', hlabelled', hepsilon', hfinals'⟩ := c
  obtain rfl : A' = A := halphabet
  obtain rfl : states' = states := hstates
  obtain rfl : finals' = finals := hfinals
  -- a cell of the table holds the targets of the edges that it stands for
  have hsame : labelled' = labelled := by
    apply Table.ext
    intro p letter
    apply SortedSet.ext
    intro q
    rw [htargets p letter q]
    have hread := targets_eq
      ⟨A', states', labelled', epsilon', finals', hlabelled', hepsilon', hfinals'⟩ p letter
    exact (hread ▸ edge_get_iff).symm
  have hsame' : epsilon' = epsilon := by
    apply Vector.ext
    intro p hp
    apply SortedSet.ext
    intro q
    simpa [hp] using (hepsilon p q).symm
  subst hsame hsame'
  rfl

/-- The edges and final states of a draft are those of the lists. -/
structure Drawn (b : Draft α) (A : Alphabet α) (states : Nat) (edges : List (Transition α))
    (epsilon : List (Nat × Nat)) (finals : List Nat) : Prop where
  alphabet_eq : b.alphabet = A
  states_eq : b.states = states
  edge_symbol_iff : ∀ p a q, b.Edge p (some a) q ↔ ⟨p, a, q⟩ ∈ edges
  edge_epsilon_iff : ∀ p q, b.Edge p none q ↔ (p, q) ∈ epsilon
  mem_finals_iff : ∀ q, q ∈ b.finals ↔ q ∈ finals

theorem drawn_addStates : Drawn ((empty A).addStates states) A states [] [] [] := by
  induction states with
  | zero =>
      refine ⟨rfl, rfl, ?_, ?_, ?_⟩
      · exact fun p a q => iff_of_false not_edge_empty List.not_mem_nil
      · exact fun p q => iff_of_false not_edge_empty List.not_mem_nil
      · exact fun q => iff_of_false (SortedSet.not_mem_empty q) List.not_mem_nil
  | succ states ih =>
      refine ⟨ih.alphabet_eq, congrArg (· + 1) ih.states_eq, ?_, ?_, ih.mem_finals_iff⟩
      · exact fun p a q => edge_addState_iff.trans (ih.edge_symbol_iff p a q)
      · exact fun p q => edge_addState_iff.trans (ih.edge_epsilon_iff p q)

/-- Only the elements of the lists matter for a draft. -/
theorem Drawn.eq (hb : Drawn b A states edges epsilon finals)
    (hc : Drawn c A states edges' epsilon' finals') (hedges : ∀ e, e ∈ edges' ↔ e ∈ edges)
    (hepsilon : ∀ e, e ∈ epsilon' ↔ e ∈ epsilon) (hfinals : ∀ f, f ∈ finals' ↔ f ∈ finals) :
    c = b := by
  apply eq_of_edge_iff (hc.alphabet_eq.trans hb.alphabet_eq.symm)
    (hc.states_eq.trans hb.states_eq.symm)
  · intro p label q
    cases label with
    | none => rw [hc.edge_epsilon_iff, hepsilon, hb.edge_epsilon_iff]
    | some a => rw [hc.edge_symbol_iff, hedges, hb.edge_symbol_iff]
  · apply SortedSet.ext
    intro q
    rw [hc.mem_finals_iff, hfinals, hb.mem_finals_iff]

/-! ## Faults -/

/-- What is wrong with a labelled edge: its source, or else its target, or else its symbol. -/
inductive EdgeFault (A : Alphabet α) (states : Nat) (edge : Transition α) :
    AutomatonFault α → Prop
  | source : states ≤ edge.source →
      EdgeFault A states edge (.stateOutOfRange edge.source states)
  | target : edge.source < states → states ≤ edge.target →
      EdgeFault A states edge (.stateOutOfRange edge.target states)
  | symbol : edge.source < states → edge.target < states → edge.symbol ∉ A →
      EdgeFault A states edge (.unknownSymbol edge.symbol)

/-- What is wrong with an epsilon edge: its source, or else its target. -/
inductive EpsilonFault (states : Nat) (edge : Nat × Nat) : AutomatonFault α → Prop
  | source : states ≤ edge.1 → EpsilonFault states edge (.stateOutOfRange edge.1 states)
  | target : edge.1 < states → states ≤ edge.2 →
      EpsilonFault states edge (.stateOutOfRange edge.2 states)

theorem not_edgeFault_iff {edge : Transition α} : (∀ fault, ¬ EdgeFault A states edge fault) ↔
    edge.source < states ∧ edge.target < states ∧ edge.symbol ∈ A := by
  constructor
  · intro hnone
    have hsource : edge.source < states := Nat.lt_of_not_le fun hle => hnone _ (.source hle)
    have htarget : edge.target < states :=
      Nat.lt_of_not_le fun hle => hnone _ (.target hsource hle)
    refine ⟨hsource, htarget, ?_⟩
    by_contra hunknown
    exact hnone _ (.symbol hsource htarget hunknown)
  · intro hrange fault hfault
    obtain ⟨hsource, htarget, hsymbol⟩ := hrange
    cases hfault with
    | source hle => exact absurd hsource (Nat.not_lt.mpr hle)
    | target _ hle => exact absurd htarget (Nat.not_lt.mpr hle)
    | symbol _ _ hunknown => exact hunknown hsymbol

omit [TotalOrd α] in
theorem not_epsilonFault_iff {edge : Nat × Nat} :
    (∀ fault, ¬ EpsilonFault (α := α) states edge fault) ↔ edge.1 < states ∧ edge.2 < states := by
  constructor
  · intro hnone
    have hsource : edge.1 < states := Nat.lt_of_not_le fun hle => hnone _ (.source hle)
    exact ⟨hsource, Nat.lt_of_not_le fun hle => hnone _ (.target hsource hle)⟩
  · intro hrange fault hfault
    obtain ⟨hsource, htarget⟩ := hrange
    cases hfault with
    | source hle => exact absurd hsource (Nat.not_lt.mpr hle)
    | target _ hle => exact absurd htarget (Nat.not_lt.mpr hle)

/-- Where the faults of an element are its own, a list without a fault is one of such elements. -/
theorem faultless_iff_forall_mem {ι ε : Type} {faulty : ι → ε → Prop} {l : List ι} :
    Faultless (fun _ => faulty) l ↔ ∀ i ∈ l, ∀ fault, ¬ faulty i fault := by
  constructor
  · intro hl i hi fault
    obtain ⟨before, after, hsplit⟩ := List.append_of_mem hi
    exact hl before i after fault hsplit
  · intro hl before i after fault hsplit
    subst hsplit
    exact hl i (List.mem_append_right before List.mem_cons_self) fault

theorem addTransition_eq_error {edge : Transition α}
    (hfault : EdgeFault b.alphabet b.states edge fault) : b.addTransition edge = .error fault := by
  obtain ⟨source, symbol, target⟩ := edge
  cases hfault with
  | source hsource => simp only [addTransition, requireState_of_le hsource, bind, Except.bind]
  | target hsource htarget =>
      have hfirst := requireState_val (α := α) ⟨source, hsource⟩
      simp only [addTransition, hfirst, requireState_of_le htarget, bind, Except.bind]
  | symbol hsource htarget hsymbol => exact addTransition_of_not_mem hsource hsymbol htarget

theorem addEpsilon_eq_error {edge : Nat × Nat} (hfault : EpsilonFault b.states edge fault) :
    b.addEpsilon edge.1 edge.2 = .error fault := by
  obtain ⟨source, target⟩ := edge
  cases hfault with
  | source hsource => simp only [addEpsilon, requireState_of_le hsource, bind, Except.bind]
  | target hsource htarget =>
      have hfirst := requireState_val (α := α) ⟨source, hsource⟩
      simp only [addEpsilon, hfirst, requireState_of_le htarget, bind, Except.bind]

/-! ## Lists -/

theorem detects_addTransition : Detects (fun _ => EdgeFault A states) addTransition
    (fun b edges => Drawn b A states edges [] []) where
  refuses edges b edge fault hb hfault := by
    obtain ⟨rfl, rfl, _⟩ := hb
    exact addTransition_eq_error hfault
  accepts edges b edge hb hedge := by
    obtain ⟨source, symbol, target⟩ := edge
    obtain ⟨rfl, rfl, hlabelled, hepsilon, hfinals⟩ := hb
    obtain ⟨hsource, htarget, hsymbol⟩ := not_edgeFault_iff.mp hedge
    obtain ⟨c, hc, hcA, hcN, hcF, hcE⟩ := exists_addTransition hsource hsymbol htarget
    refine ⟨c, hc, hcA, hcN, ?_, ?_, ?_⟩
    · intro p a q
      rw [hcE, hlabelled, List.mem_append, List.mem_singleton, Transition.mk.injEq,
        Option.some.injEq]
      tauto
    · intro p q
      rw [hcE, hepsilon]
      simp
    · intro q
      rw [hcF, hfinals]

theorem detects_addEpsilon : Detects (fun _ => EpsilonFault states)
    (fun (b : Draft α) (edge : Nat × Nat) => b.addEpsilon edge.1 edge.2)
    (fun b epsilon => Drawn b A states edges epsilon []) where
  refuses epsilon b edge fault hb hfault := by
    obtain ⟨rfl, rfl, _⟩ := hb
    exact addEpsilon_eq_error hfault
  accepts epsilon b edge hb hedge := by
    obtain ⟨rfl, rfl, hlabelled, hepsilon, hfinals⟩ := hb
    obtain ⟨hsource, htarget⟩ := not_epsilonFault_iff.mp hedge
    obtain ⟨c, hc, hextends⟩ := exists_addEpsilon hsource htarget
    refine ⟨c, hc, hextends.alphabet_eq, hextends.states_eq, ?_, ?_, ?_⟩
    · intro p a q
      rw [hextends.edge_iff, hlabelled]
      simp
    · intro p q
      rw [hextends.edge_iff, hepsilon, List.mem_append, List.mem_singleton, Prod.ext_iff]
      simp
    · intro q
      rw [hextends.mem_finals_iff, hfinals, or_false]

theorem detects_markFinal : Detects (FinalFault states) markFinal
    (fun (b : Draft α) finals => Drawn b A states edges epsilon finals) where
  refuses finals b final fault hb hfault := by
    obtain ⟨rfl, rfl, _⟩ := hb
    cases hfault with
    | outOfRange hle => simp only [markFinal, requireState_of_le hle, bind, Except.bind]
  accepts finals b final hb hfinal := by
    obtain ⟨rfl, rfl, hlabelled, hepsilon, hfinals⟩ := hb
    have hlt : final < b.states := Nat.lt_of_not_le fun hle => hfinal _ (.outOfRange hle)
    obtain ⟨c, hc, hextends⟩ := exists_markFinal hlt
    refine ⟨c, hc, hextends.alphabet_eq, hextends.states_eq, ?_, ?_, ?_⟩
    · intro p a q
      rw [hextends.edge_iff, hlabelled, and_false, or_false]
    · intro p q
      rw [hextends.edge_iff, hepsilon, and_false, or_false]
    · intro q
      rw [hextends.mem_finals_iff, hfinals, List.mem_append, List.mem_singleton]

/-! ## Descriptions -/

/-- What is wrong with a description of an automaton: the first fault of a labelled edge, or else of
an epsilon edge, or else of a final state, or else that there is no state. -/
inductive DescriptionFault (A : Alphabet α) (states : Nat) (edges : List (Transition α))
    (epsilon : List (Nat × Nat)) (finals : List Nat) : AutomatonFault α → Prop
  | edge {fault : AutomatonFault α} : FirstFault (fun _ => EdgeFault A states) edges fault →
      DescriptionFault A states edges epsilon finals fault
  | epsilon {fault : AutomatonFault α} : Faultless (fun _ => EdgeFault A states) edges →
      FirstFault (fun _ => EpsilonFault states) epsilon fault →
      DescriptionFault A states edges epsilon finals fault
  | final {fault : AutomatonFault α} : Faultless (fun _ => EdgeFault A states) edges →
      Faultless (fun _ => EpsilonFault (α := α) states) epsilon →
      FirstFault (FinalFault states) finals fault →
      DescriptionFault A states edges epsilon finals fault
  | noStates : Faultless (fun _ => EdgeFault A states) edges →
      Faultless (fun _ => EpsilonFault (α := α) states) epsilon →
      Faultless (FinalFault (α := α) states) finals → states = 0 →
      DescriptionFault A states edges epsilon finals .noStates

/-- There is a state, and all that is listed is within the states and the alphabet. -/
structure WithinRange (A : Alphabet α) (states : Nat) (edges : List (Transition α))
    (epsilon : List (Nat × Nat)) (finals : List Nat) : Prop where
  states_pos : 0 < states
  edges_lt : ∀ e ∈ edges, e.source < states ∧ e.target < states ∧ e.symbol ∈ A
  epsilon_lt : ∀ e ∈ epsilon, e.1 < states ∧ e.2 < states
  finals_lt : ∀ f ∈ finals, f < states

/-- What is within range has no fault, and all else has one. -/
theorem withinRange_or_descriptionFault (A : Alphabet α) (states : Nat)
    (edges : List (Transition α)) (epsilon : List (Nat × Nat)) (finals : List Nat) :
    WithinRange A states edges epsilon finals ∨
      ∃ fault, DescriptionFault A states edges epsilon finals fault := by
  rcases faultless_or_firstFault (fun _ => EdgeFault A states) edges with hedges | ⟨fault, hfault⟩
  · rcases faultless_or_firstFault (fun _ => EpsilonFault (α := α) states) epsilon with
      hepsilon | ⟨fault, hfault⟩
    · rcases faultless_or_firstFault (FinalFault (α := α) states) finals with
        hfinals | ⟨fault, hfault⟩
      · rcases Nat.eq_zero_or_pos states with hzero | hpos
        · exact .inr ⟨_, .noStates hedges hepsilon hfinals hzero⟩
        · refine .inl ⟨hpos, ?_, ?_, faultless_finals_iff.mp hfinals⟩
          · exact fun e he => not_edgeFault_iff.mp (faultless_iff_forall_mem.mp hedges e he)
          · exact fun e he => not_epsilonFault_iff.mp (faultless_iff_forall_mem.mp hepsilon e he)
      · exact .inr ⟨fault, .final hedges hepsilon hfault⟩
    · exact .inr ⟨fault, .epsilon hedges hfault⟩
  · exact .inr ⟨fault, .edge hfault⟩

section Lists

variable (hedges : Faultless (fun _ => EdgeFault A states) edges)
include hedges

theorem exists_labelled :
    ∃ b, edges.foldlM addTransition ((empty A).addStates states) = .ok b ∧
      Drawn b A states edges [] [] :=
  detects_addTransition.exists_foldlM_eq_ok drawn_addStates hedges

variable (hepsilon : Faultless (fun _ => EpsilonFault (α := α) states) epsilon)
include hepsilon

theorem exists_joined : ∃ b c, edges.foldlM addTransition ((empty A).addStates states) = .ok b ∧
    epsilon.foldlM (fun b edge => b.addEpsilon edge.1 edge.2) b = .ok c ∧
      Drawn c A states edges epsilon [] := by
  obtain ⟨b, hb, hdrawn⟩ := exists_labelled hedges
  obtain ⟨c, hc, hjoined⟩ := detects_addEpsilon.exists_foldlM_eq_ok hdrawn hepsilon
  exact ⟨b, c, hb, hc, hjoined⟩

variable (hfinals : Faultless (FinalFault (α := α) states) finals)
include hfinals

theorem exists_marked :
    ∃ d, Drawn d A states edges epsilon finals ∧
      ofTransitions A states edges epsilon finals = d.build := by
  obtain ⟨b, c, hb, hc, hdrawn⟩ := exists_joined hedges hepsilon
  obtain ⟨d, hd, hmarked⟩ := detects_markFinal.exists_foldlM_eq_ok hdrawn hfinals
  refine ⟨d, hmarked, ?_⟩
  simp only [ofTransitions, hb, hc, hd, bind, Except.bind]

end Lists

theorem ofTransitions_eq_error (hfault : DescriptionFault A states edges epsilon finals fault) :
    ofTransitions A states edges epsilon finals = .error fault := by
  cases hfault with
  | edge hfault =>
      have hread := detects_addTransition.foldlM_eq_error drawn_addStates hfault
      simp only [ofTransitions, hread, bind, Except.bind]
  | epsilon hedges hfault =>
      obtain ⟨b, hb, hdrawn⟩ := exists_labelled hedges
      have hread := detects_addEpsilon.foldlM_eq_error hdrawn hfault
      simp only [ofTransitions, hb, hread, bind, Except.bind]
  | final hedges hepsilon hfault =>
      obtain ⟨b, c, hb, hc, hdrawn⟩ := exists_joined hedges hepsilon
      have hread := detects_markFinal.foldlM_eq_error hdrawn hfault
      simp only [ofTransitions, hb, hc, hread, bind, Except.bind]
  | noStates hedges hepsilon hfinals hzero =>
      obtain ⟨d, hdrawn, hmade⟩ := exists_marked hedges hepsilon hfinals
      have hstates : ¬ 0 < d.states := by
        rw [hdrawn.states_eq, hzero]
        exact Nat.lt_irrefl 0
      rw [hmade, build, dif_neg hstates]

theorem exists_ofTransitions_eq_ok (h : WithinRange A states edges epsilon finals) :
    ∃ n, ofTransitions A states edges epsilon finals = .ok n ∧
      Drawn n.toDraft A states edges epsilon finals := by
  have hedges : Faultless (fun _ => EdgeFault A states) edges :=
    faultless_iff_forall_mem.mpr fun e he => not_edgeFault_iff.mpr (h.edges_lt e he)
  have hepsilon : Faultless (fun _ => EpsilonFault (α := α) states) epsilon :=
    faultless_iff_forall_mem.mpr fun e he => not_epsilonFault_iff.mpr (h.epsilon_lt e he)
  obtain ⟨d, hdrawn, hmade⟩ := exists_marked hedges hepsilon (faultless_finals_iff.mpr h.finals_lt)
  have hstates : 0 < d.states := hdrawn.states_eq ▸ h.states_pos
  refine ⟨{ d with states_pos := hstates }, ?_, hdrawn⟩
  rw [hmade, build, dif_pos hstates]

theorem WithinRange.not_descriptionFault (h : WithinRange A states edges epsilon finals) :
    ¬ DescriptionFault A states edges epsilon finals fault := by
  intro hfault
  obtain ⟨n, hn, _⟩ := exists_ofTransitions_eq_ok h
  rw [ofTransitions_eq_error hfault] at hn
  cases hn

/-! ## Questions -/

/-- The automaton has the given alphabet and number of states, and its answers about targets and
final states are read off the lists. -/
structure IsGivenBy (n : NFA α) (A : Alphabet α) (states : Nat) (edges : List (Transition α))
    (epsilon : List (Nat × Nat)) (finals : List Nat) : Prop where
  alphabet_eq : n.alphabet = A
  states_eq : n.states = states
  targets?_eq_none_iff : ∀ source symbol,
    n.targets? source symbol = none ↔ ¬ (source < states ∧ symbol ∈ A)
  mem_targets?_iff : ∀ source symbol targets, n.targets? source symbol = some targets →
    ∀ target, target ∈ targets ↔ ⟨source, symbol, target⟩ ∈ edges
  epsilonTargets?_eq_none_iff : ∀ source, n.epsilonTargets? source = none ↔ ¬ source < states
  mem_epsilonTargets?_iff : ∀ source targets, n.epsilonTargets? source = some targets →
    ∀ target, target ∈ targets ↔ (source, target) ∈ epsilon
  mem_finals_iff : ∀ state, state ∈ n.finals ↔ state ∈ finals

section Questions

variable {n : NFA α} {targets : SortedSet Nat}

theorem targets?_eq_none_iff : n.targets? p a = none ↔ ¬ (p < n.states ∧ a ∈ n.alphabet) := by
  rw [← SortedSet.isSome_rank?_iff, targets?]
  cases n.alphabet.rank? a with
  | none => simp
  | some letter => simp

theorem mem_of_targets?_eq_some (htargets : n.targets? p a = some targets) :
    q ∈ targets ↔ n.Edge p (some a) q := by
  unfold targets? at htargets
  split at htargets
  next => cases htargets
  next letter hletter =>
    obtain rfl := SortedSet.rank?_eq_some_iff.mp hletter
    split at htargets
    next =>
      obtain rfl := Option.some.inj htargets
      exact edge_get_iff.symm
    next => cases htargets

theorem Drawn.isGivenBy (h : Drawn n.toDraft A states edges epsilon finals) :
    IsGivenBy n A states edges epsilon finals where
  alphabet_eq := h.alphabet_eq
  states_eq := h.states_eq
  targets?_eq_none_iff source symbol := by
    rw [NFA.targets?_eq_none_iff, h.alphabet_eq, h.states_eq]
  mem_targets?_iff source symbol targets htargets target := by
    rw [mem_of_targets?_eq_some htargets, h.edge_symbol_iff]
  epsilonTargets?_eq_none_iff source := by
    rw [epsilonTargets?, h.states_eq]
    simp
  mem_epsilonTargets?_iff source targets htargets target := by
    rw [epsilonTargets?] at htargets
    split at htargets
    next =>
      obtain rfl := Option.some.inj htargets
      exact h.edge_epsilon_iff source target
    next => cases htargets
  mem_finals_iff := h.mem_finals_iff

end Questions

/-! ## Construction -/

/-- Construction reports exactly the first fault of the description. When all that is listed is within
range it makes the automaton of the lists, and any lists with the same elements make the same
automaton. -/
theorem construction_exact (A : Alphabet α) (states : Nat) (edges : List (Transition α))
    (epsilon : List (Nat × Nat)) (finals : List Nat) :
    (∀ fault, ofTransitions A states edges epsilon finals = .error fault ↔
      DescriptionFault A states edges epsilon finals fault) ∧
    ((∃ n, ofTransitions A states edges epsilon finals = .ok n) ↔
      WithinRange A states edges epsilon finals) ∧
    ∀ n, ofTransitions A states edges epsilon finals = .ok n →
      IsGivenBy n A states edges epsilon finals ∧
        ∀ edges' epsilon' finals', (∀ e, e ∈ edges' ↔ e ∈ edges) →
          (∀ e, e ∈ epsilon' ↔ e ∈ epsilon) → (∀ f, f ∈ finals' ↔ f ∈ finals) →
            ofTransitions A states edges' epsilon' finals' = .ok n := by
  rcases withinRange_or_descriptionFault A states edges epsilon finals with hrange | ⟨first, hfirst⟩
  · obtain ⟨n, hn, hdrawn⟩ := exists_ofTransitions_eq_ok hrange
    refine ⟨?_, iff_of_true ⟨n, hn⟩ hrange, ?_⟩
    · intro fault
      rw [hn]
      exact iff_of_false (fun h => by cases h) hrange.not_descriptionFault
    · intro m hm
      obtain rfl := Except.ok.inj (hn.symm.trans hm)
      refine ⟨hdrawn.isGivenBy, ?_⟩
      intro edges' epsilon' finals' hedges hepsilon hfinals
      have hrange' : WithinRange A states edges' epsilon' finals' := by
        refine ⟨hrange.states_pos, ?_, ?_, ?_⟩
        · exact fun e he => hrange.edges_lt e ((hedges e).mp he)
        · exact fun e he => hrange.epsilon_lt e ((hepsilon e).mp he)
        · exact fun f hf => hrange.finals_lt f ((hfinals f).mp hf)
      -- both automata are drawn from lists with the same elements
      obtain ⟨m, hm, hdrawn'⟩ := exists_ofTransitions_eq_ok hrange'
      have hsame : m.toDraft = n.toDraft := hdrawn.eq hdrawn' hedges hepsilon hfinals
      rw [hm, toDraft_inj hsame]
  · have hreported := ofTransitions_eq_error hfirst
    refine ⟨?_, ?_, ?_⟩
    · intro fault
      constructor
      · intro hfault
        obtain rfl := Except.error.inj (hreported.symm.trans hfault)
        exact hfirst
      · exact ofTransitions_eq_error
    · rw [hreported]
      refine iff_of_false (fun ⟨_, hmade⟩ => by cases hmade) ?_
      exact fun hrange => hrange.not_descriptionFault hfirst
    · intro n hmade
      rw [hreported] at hmade
      cases hmade

/-- A target out of range is reported before its symbol and before all later lists, a missing state
after everything else; without a letter there are still epsilon edges. -/
theorem construction_exact_twofold :
    DescriptionFault ({'a'} : Alphabet Char) 2 [⟨0, 'a', 1⟩, ⟨0, 'b', 2⟩] [(5, 0)] [7]
      (.stateOutOfRange 2 2) ∧
    DescriptionFault ({'a'} : Alphabet Char) 0 [] [] [] .noStates ∧
    (∃ n, ofTransitions (∅ : Alphabet Char) 2 [] [(0, 1)] [1] = .ok n ∧
      IsGivenBy n ∅ 2 [] [(0, 1)] [1]) ∧
    ∃ n, ofTransitions {'a'} 2 [⟨0, 'a', 1⟩, ⟨0, 'a', 0⟩] [(1, 0)] [1] = .ok n ∧
      ofTransitions {'a'} 2 [⟨0, 'a', 0⟩, ⟨0, 'a', 1⟩, ⟨0, 'a', 0⟩] [(1, 0), (1, 0)] [1, 1] =
        .ok n ∧
      IsGivenBy n {'a'} 2 [⟨0, 'a', 1⟩, ⟨0, 'a', 0⟩] [(1, 0)] [1] := by
  refine ⟨?_, ?_, ?_, ?_⟩
  · exact ((construction_exact _ _ _ _ _).1 _).mp rfl
  · exact ((construction_exact _ _ _ _ _).1 _).mp rfl
  · obtain ⟨n, hmade⟩ : ∃ n, ofTransitions (∅ : Alphabet Char) 2 [] [(0, 1)] [1] = .ok n := ⟨_, rfl⟩
    exact ⟨n, hmade, ((construction_exact _ _ _ _ _).2.2 n hmade).1⟩
  · obtain ⟨n, hmade⟩ : ∃ n, ofTransitions ({'a'} : Alphabet Char) 2
        [⟨0, 'a', 1⟩, ⟨0, 'a', 0⟩] [(1, 0)] [1] = .ok n := ⟨_, rfl⟩
    obtain ⟨hgiven, hsame⟩ := (construction_exact _ _ _ _ _).2.2 n hmade
    refine ⟨n, hmade, hsame _ _ _ ?_ ?_ ?_, hgiven⟩
    · intro e
      simp only [List.mem_cons, List.not_mem_nil, or_false]
      tauto
    · simp
    · simp

end LanguageTheory.NFA
