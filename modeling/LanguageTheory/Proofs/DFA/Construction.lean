import LanguageTheory.Proofs.Automaton.FirstFault
import LanguageTheory.Proofs.DFA.Language
import LanguageTheory.Proofs.Flat.Construction

/-!
# Construction from transitions, and its first fault

The table that is filled is the relation of the transitions read so far (`Holds`). So a transition
is refused when it is out of range, on an unknown symbol, or against an earlier one, and what is
missing in the end is missing from the list. The faults are found in a fixed order
(`ConstructionFault`), and an automaton that is made has exactly the given transitions and final
states (`ofTransitions_exact`). All of this needs room for the table. Without room nothing is found,
not even a transition that is missing.
-/

namespace LanguageTheory.DFA

variable {α : Type} {states : Nat} {fault : AutomatonFault α}

open AutomatonFault

/-! ## Final states -/

section Finals

variable {finals others : List Nat} {marked other : SortedSet (Fin states)}

/-- What is wrong with a final state. -/
inductive FinalFault (states : Nat) (earlier : List Nat) (final : Nat) : AutomatonFault α → Prop
  | outOfRange : states ≤ final → FinalFault states earlier final (.stateOutOfRange final states)

theorem faultless_finals_iff :
    Faultless (FinalFault (α := α) states) finals ↔ ∀ final ∈ finals, final < states := by
  constructor
  · intro hfinals final hfinal
    obtain ⟨before, after, hsplit⟩ := List.append_of_mem hfinal
    exact Nat.lt_of_not_le fun hle => hfinals before final after _ hsplit (.outOfRange hle)
  · rintro hfinals before final after fault rfl ⟨hle⟩
    have hlt := hfinals final (List.mem_append_right before List.mem_cons_self)
    exact absurd hlt (Nat.not_lt.mpr hle)

/-- The states are those that are listed. -/
def Listed (marked : SortedSet (Fin states)) (finals : List Nat) : Prop :=
  ∀ state : Fin states, state ∈ marked ↔ state.val ∈ finals

theorem listed_empty : Listed (∅ : SortedSet (Fin states)) [] := by
  intro state
  simp

theorem detects_requireStates : Detects (FinalFault (α := α) states)
    (fun (marked : SortedSet (Fin states)) final => do
      let state ← requireState states final
      .ok (insert state marked)) Listed where
  refuses finals marked final fault hmarked hfault := by
    cases hfault with
    | outOfRange hle => simp only [requireState_of_le hle, bind, Except.bind]
  accepts finals marked final hmarked hfinal := by
    have hlt : final < states := Nat.lt_of_not_le fun hle => hfinal _ (.outOfRange hle)
    have hstate := requireState_val (α := α) ⟨final, hlt⟩
    refine ⟨insert ⟨final, hlt⟩ marked, by simp only [hstate, bind, Except.bind], ?_⟩
    intro state
    rw [SortedSet.mem_insert, List.mem_append, List.mem_singleton, hmarked, Fin.ext_iff, or_comm]

theorem requireStates_eq_error (hfault : FirstFault (FinalFault states) finals fault) :
    requireStates states finals = .error fault :=
  detects_requireStates.foldlM_eq_error listed_empty hfault

theorem exists_requireStates_eq_ok (hfinals : Faultless (FinalFault (α := α) states) finals) :
    ∃ marked, requireStates (α := α) states finals = .ok marked ∧ Listed marked finals :=
  detects_requireStates.exists_foldlM_eq_ok listed_empty hfinals

/-- Only the set of the final states matters. -/
theorem Listed.eq (hmarked : Listed marked finals) (hother : Listed other others)
    (hsame : ∀ f, f ∈ others ↔ f ∈ finals) : other = marked := by
  apply SortedSet.ext
  intro state
  rw [hmarked, hother, hsame]

end Finals

/-! ## Transitions -/

variable [TotalOrd α] {A : Alphabet α} {edges others : List (Transition α)} {edge : Transition α}
  {finals : List Nat} {table other : PartialTable A states} {marked : SortedSet (Fin states)}
  {m : Machine} {d : DFA α}

/-- What is wrong with a transition after the earlier ones: its source, or else its target, or else
its symbol, or else that an earlier transition has another target. -/
inductive TransitionFault (A : Alphabet α) (states : Nat) (earlier : List (Transition α))
    (edge : Transition α) : AutomatonFault α → Prop
  | source : states ≤ edge.source →
      TransitionFault A states earlier edge (.stateOutOfRange edge.source states)
  | target : edge.source < states → states ≤ edge.target →
      TransitionFault A states earlier edge (.stateOutOfRange edge.target states)
  | symbol : edge.source < states → edge.target < states → edge.symbol ∉ A →
      TransitionFault A states earlier edge (.unknownSymbol edge.symbol)
  | conflict {target : Nat} : edge.source < states → edge.target < states → edge.symbol ∈ A →
      ⟨edge.source, edge.symbol, target⟩ ∈ earlier → target ≠ edge.target →
      TransitionFault A states earlier edge (.conflictingTransition edge.source edge.symbol)

/-- The table is the relation of the transitions, which are all within its states and letters. -/
structure Holds (table : PartialTable A states) (edges : List (Transition α)) : Prop where
  get_eq_some_iff : ∀ state letter target,
    table.get state letter = some target ↔ ⟨state, A.get letter, target⟩ ∈ edges
  exists_eq : ∀ edge ∈ edges, ∃ (source target : Fin states) (letter : Alphabet.Letter A),
    edge = ⟨source, A.get letter, target⟩

theorem holds_filled : Holds (.filled states A.size none : PartialTable A states) [] where
  get_eq_some_iff state letter target := by simp
  exists_eq edge hedge := absurd hedge List.not_mem_nil

/-- A transition that is not at fault is between states that are there, on a letter, and agrees with
the table. -/
theorem Holds.exists_of_not_fault (htable : Holds table edges)
    (hedge : ∀ fault, ¬ TransitionFault A states edges edge fault) :
    ∃ (source target : Fin states) (letter : Alphabet.Letter A),
      edge = ⟨source, A.get letter, target⟩ ∧
        ∀ known, table.get source letter = some known → known = target := by
  obtain ⟨source, symbol, target⟩ := edge
  have hsource : source < states := Nat.lt_of_not_le fun hle => hedge _ (.source hle)
  have htarget : target < states := Nat.lt_of_not_le fun hle => hedge _ (.target hsource hle)
  have hsymbol : symbol ∈ A := by
    by_contra hunknown
    exact hedge _ (.symbol hsource htarget hunknown)
  obtain ⟨letter, rfl⟩ := SortedSet.exists_get_eq hsymbol
  refine ⟨⟨source, hsource⟩, ⟨target, htarget⟩, letter, rfl, ?_⟩
  intro known hknown
  by_contra hne
  have hearlier := (htable.get_eq_some_iff ⟨source, hsource⟩ letter known).mp hknown
  have hdiffer : known.val ≠ target := fun hsame => hne (Fin.ext hsame)
  exact hedge _ (.conflict hsource htarget hsymbol hearlier hdiffer)

theorem Holds.enter_eq_error (htable : Holds table edges)
    (hfault : TransitionFault A states edges edge fault) : enter table edge = .error fault := by
  obtain ⟨source, symbol, target⟩ := edge
  cases hfault with
  | source hsource => simp only [enter, requireState_of_le hsource, bind, Except.bind]
  | target hsource htarget =>
      have hfirst := requireState_val (α := α) ⟨source, hsource⟩
      simp only [enter, hfirst, requireState_of_le htarget, bind, Except.bind]
  | symbol hsource htarget hsymbol =>
      have hfirst := requireState_val (α := α) ⟨source, hsource⟩
      have hsecond := requireState_val (α := α) ⟨target, htarget⟩
      simp only [enter, hfirst, hsecond, requireLetter_of_not_mem hsymbol, bind, Except.bind]
  | conflict hsource htarget hsymbol hearlier hne =>
      obtain ⟨state, known, letter, hedge⟩ := htable.exists_eq _ hearlier
      rw [hedge] at hearlier
      obtain ⟨rfl, rfl, rfl⟩ := Transition.mk.inj hedge
      have hread := (htable.get_eq_some_iff state letter known).mpr hearlier
      have hsecond := requireState_val (α := α) ⟨target, htarget⟩
      have hdiffer : known ≠ ⟨target, htarget⟩ := fun hsame => hne (congrArg Fin.val hsame)
      simp only [enter, requireState_val, hsecond, requireLetter_get, bind, Except.bind, hread,
        if_neg hdiffer]

/-- A transition that is not at fault is entered. -/
theorem Holds.exists_enter_eq_ok (htable : Holds table edges)
    (hedge : ∀ fault, ¬ TransitionFault A states edges edge fault) :
    ∃ after, enter table edge = .ok after ∧ Holds after (edges ++ [edge]) := by
  obtain ⟨source, target, letter, rfl, hagrees⟩ := htable.exists_of_not_fault hedge
  have htyped : ∀ e ∈ edges ++ [⟨source, A.get letter, target⟩],
      ∃ (p q : Fin states) (a : Alphabet.Letter A), e = ⟨p, A.get a, q⟩ := by
    intro e he
    rcases List.mem_append.mp he with hold | hnew
    · exact htable.exists_eq e hold
    · exact ⟨source, target, letter, List.mem_singleton.mp hnew⟩
  simp only [enter, requireState_val, requireLetter_get, bind, Except.bind]
  -- the cell is empty, or an earlier transition has filled it with the same target
  cases hread : table.get source letter with
  | none =>
      refine ⟨_, rfl, ?_, htyped⟩
      intro state a found
      rw [List.mem_append, List.mem_singleton, Transition.mk.injEq, Fin.val_inj, Fin.val_inj,
        ← htable.get_eq_some_iff]
      by_cases hcell : source = state ∧ letter = a
      · obtain ⟨rfl, rfl⟩ := hcell
        simp [hread, eq_comm]
      · rw [Table.get_set_ne hcell]
        refine (or_iff_left ?_).symm
        rintro ⟨rfl, hletter, _⟩
        exact hcell ⟨rfl, (SortedSet.get_inj hletter).symm⟩
  | some known =>
      obtain rfl := hagrees known hread
      refine ⟨table, if_pos rfl, ?_, htyped⟩
      intro state a found
      have hmem := (htable.get_eq_some_iff source letter known).mp hread
      rw [htable.get_eq_some_iff, List.mem_append, List.mem_singleton]
      refine (or_iff_left_of_imp ?_).symm
      intro hsame
      rwa [hsame]

theorem detects_enter :
    Detects (TransitionFault A states) (enter : PartialTable A states → _ → _) Holds where
  refuses _ _ _ _ htable hfault := htable.enter_eq_error hfault
  accepts _ _ _ htable hedge := htable.exists_enter_eq_ok hedge

theorem enterAll_eq_error (hfault : FirstFault (TransitionFault A states) edges fault) :
    enterAll (.filled states A.size none) edges = .error fault :=
  detects_enter.foldlM_eq_error holds_filled hfault

theorem exists_enterAll_eq_ok (hedges : Faultless (TransitionFault A states) edges) :
    ∃ table, enterAll (.filled states A.size none) edges = .ok table ∧ Holds table edges :=
  detects_enter.exists_foldlM_eq_ok holds_filled hedges

/-- Only the set of the transitions matters for the table. -/
theorem Holds.eq (htable : Holds table edges) (hother : Holds other others)
    (hsame : ∀ e, e ∈ others ↔ e ∈ edges) : other = table := by
  apply Table.ext
  intro state letter
  apply Option.ext
  intro target
  rw [htable.get_eq_some_iff, hother.get_eq_some_iff, hsame]

/-- A list is without a fault when it is a function on some states and letters. -/
theorem faultless_transitions_iff : Faultless (TransitionFault A states) edges ↔
    (∀ e ∈ edges, e.source < states ∧ e.target < states ∧ e.symbol ∈ A) ∧
      ∀ e ∈ edges, ∀ f ∈ edges, e.source = f.source → e.symbol = f.symbol →
        e.target = f.target := by
  constructor
  · intro hedges
    obtain ⟨table, _, htable⟩ := exists_enterAll_eq_ok hedges
    constructor
    · intro e he
      obtain ⟨source, target, letter, rfl⟩ := htable.exists_eq e he
      exact ⟨source.2, target.2, A.get_mem letter⟩
    · intro e he f hf hsource hsymbol
      obtain ⟨source, target, letter, rfl⟩ := htable.exists_eq e he
      obtain ⟨source', target', letter', rfl⟩ := htable.exists_eq f hf
      obtain rfl := Fin.ext hsource
      obtain rfl := SortedSet.get_inj hsymbol
      have hread := (htable.get_eq_some_iff _ _ _).mpr he
      have hread' := (htable.get_eq_some_iff _ _ _).mpr hf
      rw [hread] at hread'
      exact congrArg Fin.val (Option.some.inj hread')
  · rintro ⟨hrange, hfunction⟩ before edge after fault rfl hfault
    have hmem : edge ∈ before ++ edge :: after := List.mem_append_right before List.mem_cons_self
    obtain ⟨hsource, htarget, hsymbol⟩ := hrange edge hmem
    cases hfault with
    | source hle => exact absurd hsource (Nat.not_lt.mpr hle)
    | target _ hle => exact absurd htarget (Nat.not_lt.mpr hle)
    | symbol _ _ hunknown => exact hunknown hsymbol
    | conflict _ _ _ hearlier hne =>
        exact hne (hfunction _ (List.mem_append_left _ hearlier) edge hmem rfl rfl)

/-! ## Missing transitions -/

/-- A state has a transition on a symbol. -/
def HasTarget (edges : List (Transition α)) (state : Nat) (symbol : α) : Prop :=
  ∃ target, ⟨state, symbol, target⟩ ∈ edges

/-- The least state, and for it the least symbol, without a transition. -/
structure LeastMissing (A : Alphabet α) (states : Nat) (edges : List (Transition α)) (state : Nat)
    (symbol : α) : Prop where
  state_lt : state < states
  symbol_mem : symbol ∈ A
  missing : ¬ HasTarget edges state symbol
  hasTarget_of_lt : ∀ q < state, ∀ a ∈ A, HasTarget edges q a
  hasTarget_of_below : ∀ a ∈ A, Below a symbol → HasTarget edges state a

/-- A search through all numbers below a bound stops at the least one with a value. -/
theorem findSome?_finRange_eq_some_iff {β : Type} {n : Nat} {f : Fin n → Option β} {b : β} :
    (List.finRange n).findSome? f = some b ↔ ∃ i, f i = some b ∧ ∀ j < i, f j = none := by
  rw [findSome?_eq_some_iff_of_pairwise (List.pairwise_lt_finRange n) fun _ _ => lt_asymm]
  simp only [List.mem_finRange, true_and, true_implies]

theorem find?_finRange_eq_some_iff {n : Nat} {test : Fin n → Bool} {i : Fin n} :
    (List.finRange n).find? test = some i ↔ test i ∧ ∀ j < i, ¬ test j := by
  rw [List.find?_eq_findSome?_guard, findSome?_finRange_eq_some_iff]
  simp [Option.guard_eq_some_iff, Option.guard_eq_none_iff]

/-- The least state and letter without an entry. -/
theorem firstMissing_eq_some_iff {state : Fin states} {letter : Alphabet.Letter A} :
    firstMissing table = some (state, letter) ↔
      table.get state letter = none ∧ (∀ a < letter, table.get state a ≠ none) ∧
        ∀ q < state, ∀ a, table.get q a ≠ none := by
  rw [firstMissing, findSome?_finRange_eq_some_iff]
  simp only [Option.map_eq_some_iff, Option.map_eq_none_iff, Prod.mk.injEq, Alphabet.letters,
    find?_finRange_eq_some_iff, List.find?_eq_none, List.mem_finRange, Option.isNone_iff_eq_none,
    true_implies]
  constructor
  · rintro ⟨_, ⟨_, ⟨hnone, hbelow⟩, rfl, rfl⟩, hearlier⟩
    exact ⟨hnone, hbelow, hearlier⟩
  · rintro ⟨hnone, hbelow, hearlier⟩
    exact ⟨state, ⟨letter, ⟨hnone, hbelow⟩, rfl, rfl⟩, hearlier⟩

theorem Holds.hasTarget_iff (htable : Holds table edges) {state : Fin states}
    {letter : Alphabet.Letter A} :
    HasTarget edges state (A.get letter) ↔ table.get state letter ≠ none := by
  rw [Option.ne_none_iff_exists']
  constructor
  · rintro ⟨target, hedge⟩
    obtain ⟨_, found, _, heq⟩ := htable.exists_eq _ hedge
    obtain ⟨_, _, rfl⟩ := Transition.mk.inj heq
    exact ⟨found, (htable.get_eq_some_iff _ _ _).mpr hedge⟩
  · rintro ⟨target, hread⟩
    exact ⟨target, (htable.get_eq_some_iff _ _ _).mp hread⟩

theorem Holds.lt_of_hasTarget (htable : Holds table edges) {source : Nat} {symbol : α}
    (hhas : HasTarget edges source symbol) : source < states := by
  obtain ⟨_, hedge⟩ := hhas
  obtain ⟨state, _, _, heq⟩ := htable.exists_eq _ hedge
  exact (Transition.mk.inj heq).1 ▸ state.2

/-- What is missing from the table is missing from the list. -/
theorem Holds.firstMissing_eq_some_iff (htable : Holds table edges) {state : Fin states}
    {letter : Alphabet.Letter A} :
    firstMissing table = some (state, letter) ↔
      LeastMissing A states edges state (A.get letter) := by
  rw [DFA.firstMissing_eq_some_iff]
  constructor
  · rintro ⟨hnone, hbelow, hearlier⟩
    refine ⟨state.2, A.get_mem letter, fun hhas => htable.hasTarget_iff.mp hhas hnone, ?_, ?_⟩
    · intro q hq a ha
      obtain ⟨b, rfl⟩ := SortedSet.exists_get_eq ha
      let earlier : Fin states := ⟨q, hq.trans state.2⟩
      exact htable.hasTarget_iff.mpr (hearlier earlier hq b)
    · intro a ha hlt
      obtain ⟨b, rfl⟩ := SortedSet.exists_get_eq ha
      exact htable.hasTarget_iff.mpr (hbelow b (SortedSet.get_below_get_iff.mp hlt))
  · intro hleast
    refine ⟨?_, ?_, ?_⟩
    · by_contra hsome
      exact hleast.missing (htable.hasTarget_iff.mpr hsome)
    · intro a ha
      have hhas := hleast.hasTarget_of_below (A.get a) (A.get_mem a) (SortedSet.get_below_get_iff.mpr ha)
      exact htable.hasTarget_iff.mp hhas
    · intro q hq a
      exact htable.hasTarget_iff.mp (hleast.hasTarget_of_lt q hq (A.get a) (A.get_mem a))

/-- No state and letter is without an entry, or a least transition is missing. -/
theorem Holds.firstMissing_eq_none (htable : Holds table edges)
    (hall : ∀ state symbol, ¬ LeastMissing A states edges state symbol) :
    firstMissing table = none := by
  cases hmissing : firstMissing table with
  | none => rfl
  | some place => exact absurd (htable.firstMissing_eq_some_iff.mp hmissing) (hall _ _)

/-- The least missing transition is found in the table. -/
theorem Holds.exists_firstMissing (htable : Holds table edges) {state : Nat} {symbol : α}
    (hmissing : LeastMissing A states edges state symbol) :
    ∃ place, firstMissing table = some place ∧ place.1 = state ∧ A.get place.2 = symbol := by
  obtain ⟨letter, rfl⟩ := SortedSet.exists_get_eq hmissing.symbol_mem
  let found : Fin states := ⟨state, hmissing.state_lt⟩
  exact ⟨(found, letter), htable.firstMissing_eq_some_iff.mpr hmissing, rfl, rfl⟩

/-! ## Construction -/

/-- What is wrong with a description of an automaton: that there is no state, or else the first
fault of a transition, or else the first one of a final state. -/
inductive DescriptionFault (A : Alphabet α) (states : Nat) (edges : List (Transition α))
    (finals : List Nat) : AutomatonFault α → Prop
  | noStates : states = 0 → DescriptionFault A states edges finals .noStates
  | transition {fault : AutomatonFault α} : 0 < states →
      FirstFault (TransitionFault A states) edges fault →
      DescriptionFault A states edges finals fault
  | final {fault : AutomatonFault α} : 0 < states → Faultless (TransitionFault A states) edges →
      FirstFault (FinalFault states) finals fault → DescriptionFault A states edges finals fault

/-- What is wrong with a description of an automaton without a trap state: a fault of the
description, or else the least missing transition. -/
inductive ConstructionFault (A : Alphabet α) (states : Nat) (edges : List (Transition α))
    (finals : List Nat) : AutomatonFault α → Prop
  | description {fault : AutomatonFault α} : DescriptionFault A states edges finals fault →
      ConstructionFault A states edges finals fault
  | missing {state : Nat} {symbol : α} : (∀ fault, ¬ DescriptionFault A states edges finals fault) →
      LeastMissing A states edges state symbol →
      ConstructionFault A states edges finals (.missingTransition state symbol)

theorem not_descriptionFault_iff : (∀ fault, ¬ DescriptionFault A states edges finals fault) ↔
    0 < states ∧ Faultless (TransitionFault A states) edges ∧
      Faultless (FinalFault (α := α) states) finals := by
  constructor
  · intro hnone
    have hstates : 0 < states := Nat.pos_of_ne_zero fun hzero => hnone _ (.noStates hzero)
    rcases faultless_or_firstFault (TransitionFault A states) edges with hedges | ⟨fault, hfault⟩
    · rcases faultless_or_firstFault (FinalFault states) finals with hfinals | ⟨fault, hfault⟩
      · exact ⟨hstates, hedges, hfinals⟩
      · exact absurd (.final hstates hedges hfault) (hnone fault)
    · exact absurd (.transition hstates hfault) (hnone fault)
  · rintro ⟨hstates, hedges, hfinals⟩ fault hfault
    cases hfault with
    | noStates hzero => exact absurd hzero hstates.ne'
    | transition _ hfault =>
        obtain ⟨before, edge, after, hsplit, _, hedge⟩ := hfault
        exact hedges before edge after fault hsplit hedge
    | final _ _ hfault =>
        obtain ⟨before, final, after, hsplit, _, hfinal⟩ := hfault
        exact hfinals before final after fault hsplit hfinal

/-- The automaton has the given alphabet and number of states, and exactly the given transitions and
final states. -/
structure IsGivenBy (d : DFA α) (A : Alphabet α) (states : Nat) (edges : List (Transition α))
    (finals : List Nat) : Prop where
  alphabet_eq : d.alphabet = A
  states_eq : d.states = states
  transition?_iff : ∀ source symbol target,
    (d.transition? source symbol).map Fin.val = some target ↔ ⟨source, symbol, target⟩ ∈ edges
  mem_finals_iff : ∀ state, state ∈ d.finals.map Fin.val ↔ state ∈ finals

theorem val_mem_finals_iff {d : DFA α} {state : d.State} :
    state.val ∈ d.finals.map Fin.val ↔ d.isFinal state :=
  (List.mem_map_of_injective Fin.val_injective).trans mem_finals

namespace IsGivenBy

variable {d : DFA α} (h : IsGivenBy d A states edges finals) {state : d.State} {symbol : α}
include h

theorem isFinal_iff : d.isFinal state ↔ state.val ∈ finals :=
  val_mem_finals_iff.symm.trans (h.mem_finals_iff state)

theorem hasTarget (hsymbol : symbol ∈ A) : HasTarget edges state symbol := by
  cases htarget : d.transition? state symbol with
  | none =>
      rw [transition?_eq_none_iff, h.alphabet_eq] at htarget
      exact absurd hsymbol htarget
  | some target =>
      refine ⟨target, (h.transition?_iff state symbol target).mp ?_⟩
      rw [htarget, Option.map_some]

end IsGivenBy

/-- The numbers of a transition, read off the automaton. -/
theorem map_transition?_eq_some_iff {d : DFA α} {source target : Nat} {symbol : α} :
    (d.transition? source symbol).map Fin.val = some target ↔
      ∃ (state : d.State) (letter : d.Letter),
        source = state ∧ symbol = d.alphabet.get letter ∧ target = d.next state letter := by
  constructor
  · intro hread
    obtain ⟨found, hfound, rfl⟩ := Option.map_eq_some_iff.mp hread
    have hsource : source < d.states := by
      by_contra hle
      unfold transition? at hfound
      split at hfound
      · cases hfound
      · rw [dif_neg hle] at hfound
        cases hfound
    let state : d.State := ⟨source, hsource⟩
    obtain ⟨letter, rfl, rfl⟩ := (transition?_eq_some_iff (p := state)).mp hfound
    exact ⟨state, letter, rfl, rfl, rfl⟩
  · rintro ⟨state, letter, rfl, rfl, rfl⟩
    exact Option.map_eq_some_iff.mpr ⟨_, transition?_eq_some_iff.mpr ⟨letter, rfl, rfl⟩, rfl⟩

theorem next_full_of_some {hstates : 0 < states} {state target : Fin states}
    {letter : Alphabet.Letter A} (hread : table.get state letter = some target) :
    (full hstates table marked).next state letter = target := by
  rw [next_full, hread, Option.getD_some]

/-- A full table makes the automaton of the transitions and final states that it is described by. -/
theorem isGivenBy_full (hstates : 0 < states) (htable : Holds table edges)
    (hmarked : Listed marked finals) (hfinals : ∀ final ∈ finals, final < states)
    (hfull : firstMissing table = none) :
    IsGivenBy (full hstates table marked) A states edges finals where
  alphabet_eq := rfl
  states_eq := rfl
  transition?_iff := by
    intro source symbol target
    rw [map_transition?_eq_some_iff]
    constructor
    · rintro ⟨state, letter, rfl, rfl, rfl⟩
      obtain ⟨found, hfound⟩ := exists_target_of_firstMissing hfull state letter
      have hedge := (htable.get_eq_some_iff state letter found).mp hfound
      rw [next_full_of_some hfound]
      exact hedge
    · intro hedge
      obtain ⟨state, found, letter, heq⟩ := htable.exists_eq _ hedge
      rw [heq] at hedge
      obtain ⟨rfl, rfl, rfl⟩ := Transition.mk.inj heq
      refine ⟨state, letter, rfl, rfl, ?_⟩
      have hfound := (htable.get_eq_some_iff state letter found).mpr hedge
      rw [next_full_of_some hfound]
  mem_finals_iff := by
    intro final
    rw [List.mem_map]
    constructor
    · rintro ⟨state, hstate, rfl⟩
      exact (hmarked state).mp (isFinal_full.mp (mem_finals.mp hstate))
    · intro hfinal
      have hstate := (hmarked ⟨final, hfinals final hfinal⟩).mpr hfinal
      exact ⟨_, mem_finals.mpr (isFinal_full.mpr hstate), rfl⟩

/-! ### Descriptions that there is room for -/

section Room

variable (hroom : states * A.size ≤ m.maxCells)
include hroom

theorem run_describe_of_transitionFault
    (hfault : FirstFault (TransitionFault A states) edges fault) :
    (describe m A states edges finals).run = some (.error fault) := by
  rw [describe, Machine.allocate_of_le hroom, enterAll_eq_error hfault]
  rfl

theorem run_describe_of_finalFault (hedges : Faultless (TransitionFault A states) edges)
    (hfault : FirstFault (FinalFault states) finals fault) :
    (describe m A states edges finals).run = some (.error fault) := by
  obtain ⟨table, htable, _⟩ := exists_enterAll_eq_ok hedges
  rw [describe, Machine.allocate_of_le hroom, htable, requireStates_eq_error hfault]
  rfl

theorem exists_run_describe_eq_ok (hedges : Faultless (TransitionFault A states) edges)
    (hfinals : Faultless (FinalFault (α := α) states) finals) :
    ∃ table marked, (describe m A states edges finals).run = some (.ok (table, marked)) ∧
      Holds table edges ∧ Listed marked finals := by
  obtain ⟨table, htable, hholds⟩ := exists_enterAll_eq_ok hedges
  obtain ⟨marked, hmarked, hlisted⟩ := exists_requireStates_eq_ok hfinals
  refine ⟨table, marked, ?_, hholds, hlisted⟩
  rw [describe, Machine.allocate_of_le hroom, htable, hmarked]
  rfl

end Room

section Described

variable (hstates : 0 < states)
include hstates

theorem run_ofTransitions_of_error
    (hdescribe : (describe m A states edges finals).run = some (.error fault)) :
    (ofTransitions m A states edges finals).run = some (.error fault) := by
  rw [ofTransitions, dif_pos hstates, ExceptT.run_bind, hdescribe]
  rfl

variable (hdescribe : (describe m A states edges finals).run = some (.ok (table, marked)))
include hdescribe

theorem run_ofTransitions_of_some {state : Fin states} {letter : Alphabet.Letter A}
    (hmissing : firstMissing table = some (state, letter)) :
    (ofTransitions m A states edges finals).run =
      some (.error (.missingTransition state (A.get letter))) := by
  rw [ofTransitions, dif_pos hstates, ExceptT.run_bind, hdescribe]
  simp only [Option.bind_eq_bind, Option.bind_some, hmissing]
  rfl

theorem run_ofTransitions_of_none (hmissing : firstMissing table = none) :
    (ofTransitions m A states edges finals).run = some (.ok (full hstates table marked)) := by
  rw [ofTransitions, dif_pos hstates, ExceptT.run_bind, hdescribe]
  simp only [Option.bind_eq_bind, Option.bind_some, hmissing]
  rfl

end Described

theorem run_ofTransitions_of_lt (hroom : m.maxCells < states * A.size) :
    (ofTransitions m A states edges finals).run = none := by
  have hstates : 0 < states := Nat.pos_of_mul_pos_right (Nat.zero_lt_of_lt hroom)
  rw [ofTransitions, dif_pos hstates, ExceptT.run_bind, run_describe_eq_none hroom]
  rfl

theorem run_ofTransitions_eq_error (hroom : states * A.size ≤ m.maxCells)
    (hfault : ConstructionFault A states edges finals fault) :
    (ofTransitions m A states edges finals).run = some (.error fault) := by
  cases hfault with
  | description hfault =>
      cases hfault with
      | noStates hzero =>
          rw [ofTransitions, dif_neg hzero.not_gt]
          rfl
      | transition hstates hfault =>
          exact run_ofTransitions_of_error hstates (run_describe_of_transitionFault hroom hfault)
      | final hstates hedges hfault =>
          exact run_ofTransitions_of_error hstates (run_describe_of_finalFault hroom hedges hfault)
  | missing hnone hmissing =>
      obtain ⟨hstates, hedges, hfinals⟩ := not_descriptionFault_iff.mp hnone
      obtain ⟨table, marked, hdescribe, hholds, _⟩ :=
        exists_run_describe_eq_ok hroom hedges hfinals
      obtain ⟨place, hplace, rfl, rfl⟩ := hholds.exists_firstMissing hmissing
      exact run_ofTransitions_of_some hstates hdescribe hplace

/-- Without a fault, any listing of the transitions and final states makes the same automaton. -/
theorem exists_run_ofTransitions_eq_ok (hroom : states * A.size ≤ m.maxCells)
    (hnone : ∀ fault, ¬ ConstructionFault A states edges finals fault) :
    ∃ d, IsGivenBy d A states edges finals ∧
      ∀ edges' finals', (∀ e, e ∈ edges' ↔ e ∈ edges) → (∀ f, f ∈ finals' ↔ f ∈ finals) →
        (ofTransitions m A states edges' finals').run = some (.ok d) := by
  have hdescription : ∀ fault, ¬ DescriptionFault A states edges finals fault :=
    fun fault hfault => hnone fault (.description hfault)
  obtain ⟨hstates, hedges, hfinals⟩ := not_descriptionFault_iff.mp hdescription
  obtain ⟨table, marked, _, htable, hmarked⟩ := exists_run_describe_eq_ok hroom hedges hfinals
  have hfull : firstMissing table = none :=
    htable.firstMissing_eq_none fun _ _ hmissing => hnone _ (.missing hdescription hmissing)
  rw [faultless_finals_iff] at hfinals
  refine ⟨_, isGivenBy_full hstates htable hmarked hfinals hfull, ?_⟩
  intro edges' finals' hsameEdges hsameFinals
  have hedges' : Faultless (TransitionFault A states) edges' := by
    simpa only [faultless_transitions_iff, hsameEdges] using hedges
  have hfinals' : Faultless (FinalFault (α := α) states) finals' := by
    simpa only [faultless_finals_iff, hsameFinals] using hfinals
  obtain ⟨table', marked', hdescribe, htable', hmarked'⟩ :=
    exists_run_describe_eq_ok hroom hedges' hfinals'
  -- the same transitions and final states make the same table and set
  obtain rfl := htable.eq htable' hsameEdges
  obtain rfl := hmarked.eq hmarked' hsameFinals
  exact run_ofTransitions_of_none hstates hdescribe hfull

theorem le_maxCells_of_run_ofTransitions {result : Except (AutomatonFault α) (DFA α)}
    (hended : (ofTransitions m A states edges finals).run = some result) :
    states * A.size ≤ m.maxCells := by
  by_contra hroom
  rw [run_ofTransitions_of_lt (Nat.lt_of_not_le hroom)] at hended
  cases hended

theorem run_ofTransitions_eq_none_iff :
    (ofTransitions m A states edges finals).run = none ↔ m.maxCells < states * A.size := by
  refine ⟨?_, run_ofTransitions_of_lt⟩
  intro hended
  by_contra hroom
  by_cases hnone : ∀ fault, ¬ ConstructionFault A states edges finals fault
  · obtain ⟨d, _, hsame⟩ := exists_run_ofTransitions_eq_ok (Nat.le_of_not_lt hroom) hnone
    rw [hsame edges finals (fun _ => Iff.rfl) (fun _ => Iff.rfl)] at hended
    cases hended
  · obtain ⟨fault, hfault⟩ := not_forall_not.mp hnone
    rw [run_ofTransitions_eq_error (Nat.le_of_not_lt hroom) hfault] at hended
    cases hended

theorem run_ofTransitions_eq_error_iff :
    (ofTransitions m A states edges finals).run = some (.error fault) ↔
      states * A.size ≤ m.maxCells ∧ ConstructionFault A states edges finals fault := by
  refine ⟨?_, fun ⟨hroom, hfault⟩ => run_ofTransitions_eq_error hroom hfault⟩
  intro hreported
  have hroom := le_maxCells_of_run_ofTransitions hreported
  refine ⟨hroom, ?_⟩
  by_cases hnone : ∀ other, ¬ ConstructionFault A states edges finals other
  · obtain ⟨d, _, hsame⟩ := exists_run_ofTransitions_eq_ok hroom hnone
    rw [hsame edges finals (fun _ => Iff.rfl) (fun _ => Iff.rfl)] at hreported
    cases hreported
  · obtain ⟨other, hother⟩ := not_forall_not.mp hnone
    rw [run_ofTransitions_eq_error hroom hother] at hreported
    cases hreported
    exact hother

theorem run_ofTransitions_eq_ok_iff :
    (∃ d, (ofTransitions m A states edges finals).run = some (.ok d)) ↔
      states * A.size ≤ m.maxCells ∧ ∀ fault, ¬ ConstructionFault A states edges finals fault := by
  constructor
  · rintro ⟨d, hmade⟩
    have hroom := le_maxCells_of_run_ofTransitions hmade
    refine ⟨hroom, ?_⟩
    intro fault hfault
    rw [run_ofTransitions_eq_error hroom hfault] at hmade
    cases hmade
  · rintro ⟨hroom, hnone⟩
    obtain ⟨d, _, hsame⟩ := exists_run_ofTransitions_eq_ok hroom hnone
    exact ⟨d, hsame edges finals (fun _ => Iff.rfl) (fun _ => Iff.rfl)⟩

/-- What is made is what is described, however it is listed. -/
theorem isGivenBy_of_ofTransitions
    (hmade : (ofTransitions m A states edges finals).run = some (.ok d)) :
    IsGivenBy d A states edges finals ∧
      ∀ edges' finals', (∀ e, e ∈ edges' ↔ e ∈ edges) → (∀ f, f ∈ finals' ↔ f ∈ finals) →
        (ofTransitions m A states edges' finals').run = some (.ok d) := by
  obtain ⟨hroom, hnone⟩ := run_ofTransitions_eq_ok_iff.mp ⟨d, hmade⟩
  obtain ⟨made, hgiven, hsame⟩ := exists_run_ofTransitions_eq_ok hroom hnone
  have hmade' := hsame edges finals (fun _ => Iff.rfl) (fun _ => Iff.rfl)
  rw [hmade] at hmade'
  cases hmade'
  exact ⟨hgiven, hsame⟩

/-- Where there is room for its table, construction reports exactly the faults of the list, and so
the first one. When there is none it makes the automaton that the list gives, and any listing of the
same transitions and final states makes the same automaton. Without room nothing is reported. The
construction in arrays does the same; only if numbers wrap around may it report something without
room. -/
theorem ofTransitions_exact (m : Machine) (mode : Overflow) (A : Alphabet α) (states : Nat)
    (edges : List (Transition α)) (finals : List Nat) :
    (∀ fault, (ofTransitions m A states edges finals).run = some (.error fault) ↔
      states * A.size ≤ m.maxCells ∧ ConstructionFault A states edges finals fault) ∧
    ((∃ d, (ofTransitions m A states edges finals).run = some (.ok d)) ↔
      states * A.size ≤ m.maxCells ∧ ∀ fault, ¬ ConstructionFault A states edges finals fault) ∧
    ((ofTransitions m A states edges finals).run = none ↔ m.maxCells < states * A.size) ∧
    (∀ d, (ofTransitions m A states edges finals).run = some (.ok d) →
      IsGivenBy d A states edges finals ∧
        ∀ edges' finals', (∀ e, e ∈ edges' ↔ e ∈ edges) → (∀ f, f ∈ finals' ↔ f ∈ finals) →
          (ofTransitions m A states edges' finals').run = some (.ok d)) ∧
    Follows mode flat (FlatDFA.ofTransitions? m mode A states edges finals)
      (ofTransitions m A states edges finals) :=
  ⟨fun _ => run_ofTransitions_eq_error_iff, run_ofTransitions_eq_ok_iff,
    run_ofTransitions_eq_none_iff, fun _ => isGivenBy_of_ofTransitions,
    follows_ofTransitions m mode A states edges finals⟩

theorem ofTransitions_exact_swap :
    ConstructionFault ({'a'} : Alphabet Char) 2 [⟨0, 'a', 1⟩, ⟨0, 'a', 0⟩, ⟨0, 'b', 0⟩] [7]
      (.conflictingTransition 0 'a') ∧
    ∃ d, (ofTransitions .bits64 {'a'} 2 [⟨0, 'a', 1⟩, ⟨1, 'a', 0⟩] [1]).run = some (.ok d) ∧
      (ofTransitions .bits64 {'a'} 2 [⟨1, 'a', 0⟩, ⟨0, 'a', 1⟩, ⟨1, 'a', 0⟩] [1, 1]).run =
        some (.ok d) ∧
      (FlatDFA.ofTransitions? .bits64 .wraps {'a'} 2 [⟨0, 'a', 1⟩, ⟨1, 'a', 0⟩] [1]).run =
        some (.ok d.flat) ∧
      IsGivenBy d {'a'} 2 [⟨0, 'a', 1⟩, ⟨1, 'a', 0⟩] [1] := by
  constructor
  · exact ((ofTransitions_exact .bits64 .stops _ _ _ _).1 _).mp rfl |>.2
  · obtain ⟨d, hmade⟩ : ∃ d, (ofTransitions .bits64 ({'a'} : Alphabet Char) 2
        [⟨0, 'a', 1⟩, ⟨1, 'a', 0⟩] [1]).run = some (.ok d) := ⟨_, rfl⟩
    obtain ⟨_, _, _, hanswers, hfollows⟩ := ofTransitions_exact .bits64 .wraps {'a'} 2
      [⟨0, 'a', 1⟩, ⟨1, 'a', 0⟩] [1]
    obtain ⟨hgiven, hsame⟩ := hanswers d hmade
    refine ⟨d, hmade, hsame _ _ ?_ ?_, hfollows.run_eq _ hmade, hgiven⟩
    · intro e
      simp only [List.mem_cons, List.not_mem_nil, or_false]
      tauto
    · simp

/-- Without room a transition that is missing is not reported, and where the index of a cell wraps
around, two transitions of different states are taken for a conflict. -/
theorem ofTransitions_without_room :
    (ConstructionFault ({'a', 'b'} : Alphabet Char) 9223372036854775808 [] []
      (.missingTransition 0 'a') ∧
      (ofTransitions .bits64 ({'a', 'b'} : Alphabet Char) 9223372036854775808 [] []).run = none) ∧
    ConstructionFault ({'a', 'b', 'c', 'd'} : Alphabet Char) 4611686018427387905
      [⟨0, 'a', 0⟩, ⟨4611686018427387904, 'a', 1⟩] [] (.missingTransition 0 'b') ∧
      (FlatDFA.ofTransitions? .bits64 .wraps ({'a', 'b', 'c', 'd'} : Alphabet Char)
        4611686018427387905 [⟨0, 'a', 0⟩, ⟨4611686018427387904, 'a', 1⟩] []).run =
          some (.error (.conflictingTransition 4611686018427387904 'a')) := by
  refine ⟨⟨?_, rfl⟩, ?_, rfl⟩
  · have hnone : ∀ fault, ¬ DescriptionFault ({'a', 'b'} : Alphabet Char) 9223372036854775808
        [] [] fault :=
      not_descriptionFault_iff.mpr ⟨by decide, faultless_nil, faultless_nil⟩
    refine .missing hnone ⟨by decide, by decide, ?_, ?_, ?_⟩
    · rintro ⟨_, hedge⟩
      exact List.not_mem_nil hedge
    · intro q hq
      exact absurd hq (Nat.not_lt_zero q)
    · intro a ha hbelow
      simp only [SortedSet.mem_insert, SortedSet.mem_singleton] at ha
      rcases ha with rfl | rfl <;> cases hbelow
  · have hnone : ∀ fault, ¬ DescriptionFault ({'a', 'b', 'c', 'd'} : Alphabet Char)
        4611686018427387905 [⟨0, 'a', 0⟩, ⟨4611686018427387904, 'a', 1⟩] [] fault := by
      refine not_descriptionFault_iff.mpr
        ⟨by decide, faultless_transitions_iff.mpr ⟨?_, ?_⟩, faultless_nil⟩
      · simp only [List.forall_mem_cons]
        decide
      · simp
    refine .missing hnone ⟨by decide, by decide, ?_, ?_, ?_⟩
    · rintro ⟨_, hedge⟩
      simp at hedge
    · intro q hq
      exact absurd hq (Nat.not_lt_zero q)
    · intro a ha hbelow
      simp only [SortedSet.mem_insert, SortedSet.mem_singleton] at ha
      rcases ha with rfl | rfl | rfl | rfl
      · exact ⟨0, List.mem_cons_self⟩
      all_goals cases hbelow

end LanguageTheory.DFA
