import LanguageTheory.Proofs.DFA.Construction
import LanguageTheory.Proofs.DFA.Morphism

/-!
# Completion by a trap state

A list of transitions may leave states without targets. With a trap state for these the automaton
runs on every word, but in the given states only as long as the given transitions go on
(`IsCompletion.givenRun_iff`): a run that meets a missing transition is in the trap from there on.
Where nothing is missing, the trap is never reached, and the automaton without it is contained in the
one with it, so that neither words nor minimal automata tell them apart (`withTrap_exact`). All of
this needs a number and room for the trap state (`RoomForTrap`). Where there is no such number and
numbers wrap around, the trap is the only state that is left out (`withTrap_without_number`).
-/

namespace LanguageTheory.DFA

variable {α : Type} {edges : List (Transition α)} {source target : Nat} {symbol : α} {w : List α}

/-! ## Runs through given transitions -/

/-- The given transitions lead from one state to another on a word. -/
inductive GivenRun (edges : List (Transition α)) : Nat → List α → Nat → Prop
  | nil {state : Nat} : GivenRun edges state [] state
  | cons {source middle target : Nat} {symbol : α} {w : List α} :
      ⟨source, symbol, middle⟩ ∈ edges → GivenRun edges middle w target →
      GivenRun edges source (symbol :: w) target

theorem givenRun_nil_iff : GivenRun edges source [] target ↔ source = target := by
  constructor
  · rintro ⟨⟩
    rfl
  · rintro rfl
    exact .nil

theorem givenRun_cons_iff : GivenRun edges source (symbol :: w) target ↔
    ∃ middle, ⟨source, symbol, middle⟩ ∈ edges ∧ GivenRun edges middle w target := by
  constructor
  · intro hrun
    cases hrun with
    | cons hedge hrest => exact ⟨_, hedge, hrest⟩
  · rintro ⟨middle, hedge, hrest⟩
    exact .cons hedge hrest

variable [TotalOrd α] {A : Alphabet α} {states : Nat} {edge : Transition α} {finals : List Nat}
  {table : PartialTable A states} {marked : SortedSet (Fin states)} {fault : AutomatonFault α}
  {d e : DFA α} {m : Machine}

theorem GivenRun.mem_alphabet (hrun : GivenRun edges source w target)
    (hedges : ∀ edge ∈ edges, edge.symbol ∈ A) : ∀ a ∈ w, a ∈ A := by
  induction hrun with
  | nil => exact fun a ha => absurd ha List.not_mem_nil
  | cons hedge _ ih => exact List.forall_mem_cons.mpr ⟨hedges _ hedge, ih⟩

/-! ## Completed automata -/

/-- The automaton has the given states and one more, to which a transition leads where none is given.
Its other transitions and its final states are the given ones. -/
structure IsCompletion (d : DFA α) (A : Alphabet α) (states : Nat) (edges : List (Transition α))
    (finals : List Nat) : Prop where
  alphabet_eq : d.alphabet = A
  states_eq : d.states = states + 1
  transition?_iff : ∀ source symbol target,
    (d.transition? source symbol).map Fin.val = some target ↔
      ⟨source, symbol, target⟩ ∈ edges ∨
        source ≤ states ∧ symbol ∈ A ∧ ¬ HasTarget edges source symbol ∧ target = states
  mem_finals_iff : ∀ state, state ∈ d.finals.map Fin.val ↔ state ∈ finals

namespace IsCompletion

variable (h : IsCompletion d A states edges finals) {p : d.State} {letter : d.Letter}
include h

theorem isFinal_iff : d.isFinal p ↔ p.val ∈ finals :=
  val_mem_finals_iff.symm.trans (h.mem_finals_iff p)

theorem val_next_iff : (d.next p letter).val = target ↔
    ⟨p, d.alphabet.get letter, target⟩ ∈ edges ∨
      ¬ HasTarget edges p (d.alphabet.get letter) ∧ target = states := by
  have hread : d.transition? p (d.alphabet.get letter) = some (d.next p letter) :=
    transition?_eq_some_iff.mpr ⟨letter, rfl, rfl⟩
  have hp : p.val ≤ states := Nat.le_of_lt_succ (lt_of_lt_of_eq p.2 h.states_eq)
  have hmem : ∀ a ∈ d.alphabet, a ∈ A := fun a ha => h.alphabet_eq ▸ ha
  have hletter : d.alphabet.get letter ∈ A := hmem _ (d.alphabet.get_mem letter)
  have hiff := h.transition?_iff p (d.alphabet.get letter) target
  rw [hread, Option.map_some, Option.some.injEq] at hiff
  simpa only [hp, hletter, true_and] using hiff

variable (hedges : ∀ edge ∈ edges, edge.source < states ∧ edge.target < states ∧ edge.symbol ∈ A)
include hedges

/-- The trap is never left. -/
theorem val_run_of_eq (hp : p.val = states) (letters : List d.Letter) :
    (d.run p letters).val = states := by
  induction letters generalizing p with
  | nil => exact hp
  | cons letter letters ih =>
      apply ih
      refine h.val_next_iff.mpr (.inr ⟨?_, rfl⟩)
      rintro ⟨target, hedge⟩
      exact absurd (hedges _ hedge).1 (Nat.not_lt.mpr hp.ge)

/-- In the given states the automaton runs as the given transitions do. -/
theorem givenRun_iff (hp : p.val < states) (letters : List d.Letter) :
    GivenRun edges p (Alphabet.decode d.alphabet letters) target ↔
      (d.run p letters).val = target ∧ target < states := by
  induction letters generalizing p with
  | nil =>
      rw [run_nil]
      refine givenRun_nil_iff.trans (iff_self_and.mpr ?_)
      rintro rfl
      exact hp
  | cons letter letters ih =>
      rw [run_cons]
      refine givenRun_cons_iff.trans ?_
      -- the next state is a given one, or the run is in the trap for good
      by_cases hhas : HasTarget edges p (d.alphabet.get letter)
      · obtain ⟨middle, hedge⟩ := hhas
        obtain rfl := h.val_next_iff.mpr (.inl hedge)
        rw [← ih (hedges _ hedge).2.1]
        constructor
        · rintro ⟨other, hother, hrun⟩
          obtain rfl := h.val_next_iff.mpr (.inl hother)
          exact hrun
        · intro hrun
          exact ⟨_, hedge, hrun⟩
      · have hnext := h.val_next_iff.mpr (.inr ⟨hhas, rfl⟩)
        have htrap := h.val_run_of_eq hedges hnext letters
        rw [htrap]
        refine iff_of_false ?_ ?_
        · rintro ⟨middle, hedge, _⟩
          exact hhas ⟨middle, hedge⟩
        · rintro ⟨rfl, hlt⟩
          exact Nat.lt_irrefl _ hlt

variable (hfinals : ∀ final ∈ finals, final < states)
include hfinals

/-- The words are those of the given runs from the initial state to a final one. -/
theorem mem_language_iff (hstates : 0 < states) :
    w ∈ d.language ↔ ∃ final ∈ finals, GivenRun edges 0 w final := by
  have hrun (letters : List d.Letter) (final : Nat) :
      GivenRun edges 0 (Alphabet.decode d.alphabet letters) final ↔
        (d.run d.start letters).val = final ∧ final < states :=
    h.givenRun_iff hedges (p := d.start) hstates letters
  rw [DFA.mem_language_iff]
  constructor
  · rintro ⟨_, ⟨letters, rfl, rfl⟩, hfinal⟩
    have hmem := h.isFinal_iff.mp hfinal
    exact ⟨_, hmem, (hrun letters _).mpr ⟨rfl, hfinals _ hmem⟩⟩
  · rintro ⟨final, hfinal, hgiven⟩
    have hw := hgiven.mem_alphabet fun edge hedge => (hedges edge hedge).2.2
    obtain rfl := h.alphabet_eq
    obtain ⟨letters, rfl⟩ := Alphabet.exists_decode_iff.mpr hw
    obtain ⟨rfl, _⟩ := (hrun letters final).mp hgiven
    exact ⟨_, ⟨letters, rfl, rfl⟩, h.isFinal_iff.mpr hfinal⟩

theorem recognizes_eq_ok_iff {answer : Bool} (hstates : 0 < states) :
    d.recognizes w = .ok answer ↔
      (∀ a ∈ w, a ∈ A) ∧ (answer ↔ ∃ final ∈ finals, GivenRun edges 0 w final) := by
  rw [DFA.recognizes_eq_ok_iff, h.alphabet_eq, h.mem_language_iff hedges hfinals hstates]

/-- After a missing transition the automaton is in the trap, whatever follows. -/
theorem exists_trap {before after : List α} {state : Nat} (hstates : 0 < states)
    (hrun : GivenRun edges 0 before state) (hsymbol : symbol ∈ A)
    (hmissing : ¬ HasTarget edges state symbol) (hafter : ∀ a ∈ after, a ∈ A) :
    ∃ p, d.Reaches (before ++ symbol :: after) p ∧ p.val = states ∧ ¬ d.isFinal p := by
  have hbefore := hrun.mem_alphabet fun edge hedge => (hedges edge hedge).2.2
  obtain rfl := h.alphabet_eq
  obtain ⟨first, rfl⟩ := Alphabet.exists_decode_iff.mpr hbefore
  obtain ⟨letter, rfl⟩ := SortedSet.exists_get_eq hsymbol
  obtain ⟨rest, rfl⟩ := Alphabet.exists_decode_iff.mpr hafter
  obtain ⟨rfl, _⟩ := (h.givenRun_iff hedges (p := d.start) hstates first).mp hrun
  have hnext := h.val_next_iff.mpr (.inr ⟨hmissing, rfl⟩)
  have htrap := h.val_run_of_eq hedges hnext rest
  refine ⟨_, ⟨first ++ letter :: rest, List.map_append, ?_⟩, htrap, ?_⟩
  · rw [run_append, run_cons]
  · rw [h.isFinal_iff, htrap]
    exact fun hfinal => Nat.lt_irrefl states (hfinals states hfinal)

end IsCompletion

/-! ## Automata without missing transitions -/

/-- The automaton without a trap is contained in the one with it. -/
theorem IsCompletion.exists_isMorphism (hd : IsCompletion d A states edges finals)
    (he : IsGivenBy e A states edges finals) :
    ∃ f : e.State → d.State, IsMorphism f ∧ StrictMono f := by
  have hle : e.states ≤ d.states := by
    rw [he.states_eq, hd.states_eq]
    exact Nat.le_succ states
  refine ⟨Fin.castLE hle, ⟨Fin.ext rfl, ?_, ?_⟩, Fin.strictMono_castLE hle⟩
  · intro p a
    apply Option.map_injective Fin.val_injective
    rw [Option.map_map]
    apply Option.ext
    intro target
    refine (hd.transition?_iff _ _ _).trans ?_
    refine Iff.trans ?_ (he.transition?_iff p a target).symm
    -- no transition is missing, so none leads to the trap
    refine or_iff_left ?_
    rintro ⟨_, hsymbol, hmissing, _⟩
    exact hmissing (he.hasTarget hsymbol)
  · intro p
    rw [Bool.eq_iff_iff, hd.isFinal_iff, he.isFinal_iff]
    rfl

/-! ## Construction -/

/-- The table and the set make the completion of the transitions and final states they are of. -/
theorem isCompletion_completion (htable : Holds table edges) (hmarked : Listed marked finals)
    (hfinals : ∀ final ∈ finals, final < states) :
    IsCompletion (completion table marked) A states edges finals where
  alphabet_eq := rfl
  states_eq := rfl
  transition?_iff := by
    intro source symbol target
    rw [map_transition?_eq_some_iff]
    constructor
    · rintro ⟨state, letter, rfl, rfl, rfl⟩
      have hle : state.val ≤ states := Nat.le_of_lt_succ state.2
      by_cases hlt : state.val < states
      · cases hread : table.get ⟨state, hlt⟩ letter with
        | none =>
            have hmissing := fun hhas => htable.hasTarget_iff.mp hhas hread
            exact .inr ⟨hle, A.get_mem letter, hmissing, val_next_of_none hlt hread⟩
        | some q =>
            rw [val_next_of_some hlt hread]
            exact .inl ((htable.get_eq_some_iff _ letter q).mp hread)
      · refine .inr ⟨hle, A.get_mem letter, ?_, val_next_of_not_lt hlt⟩
        exact fun hhas => hlt (htable.lt_of_hasTarget hhas)
    · rintro (hedge | ⟨hle, hsymbol, hmissing, htrap⟩)
      · obtain ⟨p, q, letter, heq⟩ := htable.exists_eq _ hedge
        rw [heq] at hedge
        obtain ⟨rfl, rfl, rfl⟩ := Transition.mk.inj heq
        have hread := (htable.get_eq_some_iff p letter q).mpr hedge
        let state : (completion table marked).State := ⟨p, Nat.lt_succ_of_lt p.2⟩
        have hlt : state.val < states := p.2
        exact ⟨state, letter, rfl, rfl, (val_next_of_some hlt hread).symm⟩
      · obtain ⟨letter, rfl⟩ := SortedSet.exists_get_eq hsymbol
        let state : (completion table marked).State := ⟨source, Nat.lt_succ_of_le hle⟩
        refine ⟨state, letter, rfl, rfl, htrap.trans (Eq.symm ?_)⟩
        by_cases hlt : state.val < states
        · have hread : table.get ⟨source, hlt⟩ letter = none := by
            by_contra hsome
            exact hmissing (htable.hasTarget_iff.mpr hsome)
          exact val_next_of_none hlt hread
        · exact val_next_of_not_lt hlt
  mem_finals_iff := by
    intro final
    rw [List.mem_map]
    constructor
    · rintro ⟨state, hstate, rfl⟩
      obtain ⟨hlt, hfinal⟩ := isFinal_completion.mp (mem_finals.mp hstate)
      exact (hmarked ⟨state, hlt⟩).mp hfinal
    · intro hfinal
      have hlt := hfinals final hfinal
      have hmem := (hmarked ⟨final, hlt⟩).mpr hfinal
      refine ⟨⟨final, Nat.lt_succ_of_lt hlt⟩, mem_finals.mpr ?_, rfl⟩
      exact isFinal_completion.mpr ⟨hlt, hmem⟩

/-- The machine has a number and room for one more state. -/
def RoomForTrap (m : Machine) (A : Alphabet α) (states : Nat) : Prop :=
  states + 1 ≤ m.maxNumber ∧ (states + 1) * A.size ≤ m.maxCells

theorem RoomForTrap.le_maxCells (h : RoomForTrap m A states) : states * A.size ≤ m.maxCells :=
  (Nat.mul_le_mul_right _ (Nat.le_succ states)).trans h.2

section Described

variable (hstates : 0 < states)
include hstates

theorem run_withTrap_of_error
    (hdescribe : (describe m A states edges finals).run = some (.error fault)) :
    (withTrap m A states edges finals).run = some (.error fault) := by
  rw [withTrap, if_pos hstates, ExceptT.run_bind, hdescribe]
  rfl

variable (hdescribe : (describe m A states edges finals).run = some (.ok (table, marked)))
include hdescribe

theorem run_withTrap_of_roomForTrap (hroom : RoomForTrap m A states) :
    (withTrap m A states edges finals).run = some (.ok (completion table marked)) := by
  rw [withTrap, if_pos hstates, ExceptT.run_bind, hdescribe, Machine.represent_of_le hroom.1,
    Machine.allocate_of_le hroom.2]
  rfl

theorem run_withTrap_of_not_roomForTrap (hroom : ¬ RoomForTrap m A states) :
    (withTrap m A states edges finals).run = none := by
  rw [withTrap, if_pos hstates, ExceptT.run_bind, hdescribe]
  by_cases hnumber : states + 1 ≤ m.maxNumber
  · have hcells := Nat.lt_of_not_le fun hle => hroom ⟨hnumber, hle⟩
    rw [Machine.represent_of_le hnumber, Machine.allocate_of_lt hcells]
    rfl
  · rw [Machine.represent_of_lt (Nat.lt_of_not_le hnumber)]
    rfl

end Described

theorem run_withTrap_of_lt (hroom : m.maxCells < states * A.size) :
    (withTrap m A states edges finals).run = none := by
  have hstates : 0 < states := Nat.pos_of_mul_pos_right (Nat.zero_lt_of_lt hroom)
  rw [withTrap, if_pos hstates, ExceptT.run_bind, run_describe_eq_none hroom]
  rfl

theorem run_withTrap_eq_error (hroom : states * A.size ≤ m.maxCells)
    (hfault : DescriptionFault A states edges finals fault) :
    (withTrap m A states edges finals).run = some (.error fault) := by
  cases hfault with
  | noStates hzero =>
      rw [withTrap, if_neg hzero.not_gt]
      rfl
  | transition hstates hfault =>
      exact run_withTrap_of_error hstates (run_describe_of_transitionFault hroom hfault)
  | final hstates hedges hfault =>
      exact run_withTrap_of_error hstates (run_describe_of_finalFault hroom hedges hfault)

/-- Without a fault, the completion of the description is made if there is room for it. -/
theorem exists_run_withTrap_eq_ok (hroom : RoomForTrap m A states)
    (hnone : ∀ fault, ¬ DescriptionFault A states edges finals fault) :
    ∃ d, (withTrap m A states edges finals).run = some (.ok d) ∧
      IsCompletion d A states edges finals := by
  obtain ⟨hstates, hedges, hfinals⟩ := not_descriptionFault_iff.mp hnone
  obtain ⟨table, marked, hdescribe, hholds, hlisted⟩ :=
    exists_run_describe_eq_ok hroom.le_maxCells hedges hfinals
  rw [faultless_finals_iff] at hfinals
  exact ⟨_, run_withTrap_of_roomForTrap hstates hdescribe hroom,
    isCompletion_completion hholds hlisted hfinals⟩

theorem run_withTrap_eq_none (hroom : ¬ RoomForTrap m A states)
    (hnone : ∀ fault, ¬ DescriptionFault A states edges finals fault) :
    (withTrap m A states edges finals).run = none := by
  by_cases htable : states * A.size ≤ m.maxCells
  · obtain ⟨hstates, hedges, hfinals⟩ := not_descriptionFault_iff.mp hnone
    obtain ⟨table, marked, hdescribe, _, _⟩ := exists_run_describe_eq_ok htable hedges hfinals
    exact run_withTrap_of_not_roomForTrap hstates hdescribe hroom
  · exact run_withTrap_of_lt (Nat.lt_of_not_le htable)

theorem le_maxCells_of_run_withTrap {result : Except (AutomatonFault α) (DFA α)}
    (hended : (withTrap m A states edges finals).run = some result) :
    states * A.size ≤ m.maxCells := by
  by_contra hroom
  rw [run_withTrap_of_lt (Nat.lt_of_not_le hroom)] at hended
  cases hended

theorem run_withTrap_eq_ok_iff : (∃ d, (withTrap m A states edges finals).run = some (.ok d)) ↔
    RoomForTrap m A states ∧ ∀ fault, ¬ DescriptionFault A states edges finals fault := by
  constructor
  · rintro ⟨d, hmade⟩
    have hnone : ∀ fault, ¬ DescriptionFault A states edges finals fault := by
      intro fault hfault
      rw [run_withTrap_eq_error (le_maxCells_of_run_withTrap hmade) hfault] at hmade
      cases hmade
    refine ⟨?_, hnone⟩
    by_contra hroom
    rw [run_withTrap_eq_none hroom hnone] at hmade
    cases hmade
  · rintro ⟨hroom, hnone⟩
    obtain ⟨d, hmade, _⟩ := exists_run_withTrap_eq_ok hroom hnone
    exact ⟨d, hmade⟩

theorem isCompletion_of_withTrap
    (hmade : (withTrap m A states edges finals).run = some (.ok d)) :
    IsCompletion d A states edges finals := by
  obtain ⟨hroom, hnone⟩ := run_withTrap_eq_ok_iff.mp ⟨d, hmade⟩
  obtain ⟨made, hmade', hd⟩ := exists_run_withTrap_eq_ok hroom hnone
  rw [hmade] at hmade'
  cases hmade'
  exact hd

theorem run_withTrap_eq_error_iff :
    (withTrap m A states edges finals).run = some (.error fault) ↔
      states * A.size ≤ m.maxCells ∧ DescriptionFault A states edges finals fault := by
  refine ⟨?_, fun ⟨hroom, hfault⟩ => run_withTrap_eq_error hroom hfault⟩
  intro hreported
  have hroom := le_maxCells_of_run_withTrap hreported
  refine ⟨hroom, ?_⟩
  by_cases hnone : ∀ other, ¬ DescriptionFault A states edges finals other
  · by_cases htrap : RoomForTrap m A states
    · obtain ⟨d, hmade, _⟩ := exists_run_withTrap_eq_ok htrap hnone
      rw [hmade] at hreported
      cases hreported
    · rw [run_withTrap_eq_none htrap hnone] at hreported
      cases hreported
  · obtain ⟨other, hother⟩ := not_forall_not.mp hnone
    rw [run_withTrap_eq_error hroom hother] at hreported
    cases hreported
    exact hother

theorem run_withTrap_eq_none_iff : (withTrap m A states edges finals).run = none ↔
    m.maxCells < states * A.size ∨
      ¬ RoomForTrap m A states ∧ ∀ fault, ¬ DescriptionFault A states edges finals fault := by
  constructor
  · intro hended
    rw [or_iff_not_imp_left, Nat.not_lt]
    intro hroom
    have hnone : ∀ fault, ¬ DescriptionFault A states edges finals fault := by
      intro fault hfault
      rw [run_withTrap_eq_error hroom hfault] at hended
      cases hended
    refine ⟨fun htrap => ?_, hnone⟩
    obtain ⟨d, hmade, _⟩ := exists_run_withTrap_eq_ok htrap hnone
    rw [hmade] at hended
    cases hended
  · rintro (hroom | ⟨htrap, hnone⟩)
    · exact run_withTrap_of_lt hroom
    · exact run_withTrap_eq_none htrap hnone

/-! ## Construction without a trap -/

theorem DescriptionFault.ne_missingTransition {state : Nat}
    (hfault : DescriptionFault A states edges finals fault) :
    fault ≠ .missingTransition state symbol := by
  rintro rfl
  cases hfault with
  | transition _ hfault =>
      obtain ⟨_, _, _, _, _, hedge⟩ := hfault
      cases hedge
  | final _ _ hfault =>
      obtain ⟨_, _, _, _, _, hfinal⟩ := hfault
      cases hfinal

/-- With a trap there are the faults of the construction without one, but for missing transitions. -/
theorem run_withTrap_eq_error_iff_ofTransitions :
    (withTrap m A states edges finals).run = some (.error fault) ↔
      (ofTransitions m A states edges finals).run = some (.error fault) ∧
        ∀ state symbol, fault ≠ .missingTransition state symbol := by
  rw [run_withTrap_eq_error_iff, run_ofTransitions_eq_error_iff, and_assoc]
  apply and_congr_right
  intro _
  constructor
  · intro hfault
    exact ⟨.description hfault, fun _ _ => hfault.ne_missingTransition⟩
  · rintro ⟨hfault, hpresent⟩
    cases hfault with
    | description hfault => exact hfault
    | missing => exact absurd rfl (hpresent _ _)

/-- Completion refuses what construction without a trap refuses, but for missing transitions. Else,
if there is a number and room for the trap, it makes an automaton whose words are those on which the
given transitions lead from the initial state to a final one, and which after a missing transition
stays in the trap, which is not final. Where the construction without a trap succeeds, both automata
answer alike and have one minimal automaton. The completion in arrays is the same, unless the number
of the trap wraps around. -/
theorem withTrap_exact (m : Machine) (mode : Overflow) (A : Alphabet α) (states : Nat)
    (edges : List (Transition α)) (finals : List Nat) :
    (∀ fault, (withTrap m A states edges finals).run = some (.error fault) ↔
      (ofTransitions m A states edges finals).run = some (.error fault) ∧
        ∀ state symbol, fault ≠ .missingTransition state symbol) ∧
    ((∃ d, (withTrap m A states edges finals).run = some (.ok d)) ↔
      RoomForTrap m A states ∧ ∀ fault, ¬ DescriptionFault A states edges finals fault) ∧
    ((withTrap m A states edges finals).run = none ↔ m.maxCells < states * A.size ∨
      ¬ RoomForTrap m A states ∧ ∀ fault, ¬ DescriptionFault A states edges finals fault) ∧
    (∀ d, (withTrap m A states edges finals).run = some (.ok d) →
      IsCompletion d A states edges finals ∧
      (∀ w answer, d.recognizes w = .ok answer ↔
        (∀ a ∈ w, a ∈ A) ∧ (answer ↔ ∃ final ∈ finals, GivenRun edges 0 w final)) ∧
      (∀ before state symbol after, GivenRun edges 0 before state → symbol ∈ A →
        ¬ HasTarget edges state symbol → (∀ a ∈ after, a ∈ A) →
        ∃ p, d.Reaches (before ++ symbol :: after) p ∧ p.val = states ∧ ¬ d.isFinal p) ∧
      ∀ e, (ofTransitions m A states edges finals).run = some (.ok e) →
        (∀ w, d.recognizes w = e.recognizes w) ∧ d.minimize = e.minimize) ∧
    (mode = .stops ∨ states + 1 ≤ m.maxNumber →
      Follows mode flat (FlatDFA.withTrap? m mode A states edges finals)
        (withTrap m A states edges finals)) := by
  refine ⟨fun _ => run_withTrap_eq_error_iff_ofTransitions, run_withTrap_eq_ok_iff,
    run_withTrap_eq_none_iff, ?_, follows_withTrap m mode A states edges finals⟩
  intro d hmade
  have hd := isCompletion_of_withTrap hmade
  obtain ⟨_, hnone⟩ := run_withTrap_eq_ok_iff.mp ⟨d, hmade⟩
  obtain ⟨hstates, hedges, hfinals⟩ := not_descriptionFault_iff.mp hnone
  have hedges := (faultless_transitions_iff.mp hedges).1
  rw [faultless_finals_iff] at hfinals
  refine ⟨hd, ?_, ?_, ?_⟩
  · intro w answer
    exact hd.recognizes_eq_ok_iff hedges hfinals hstates
  · intro before state symbol after hrun hsymbol hmissing hafter
    exact hd.exists_trap hedges hfinals hstates hrun hsymbol hmissing hafter
  · intro e he
    obtain ⟨f, hf, hmono⟩ := hd.exists_isMorphism (isGivenBy_of_ofTransitions he).1
    exact ⟨fun _ => hf.recognizes_eq, (hf.minimize_eq hmono).symm⟩

theorem withTrap_exact_step :
    (∃ d, (withTrap .bits64 ({'a'} : Alphabet Char) 2 [⟨0, 'a', 1⟩] [1]).run = some (.ok d) ∧
      (FlatDFA.withTrap? .bits64 .wraps ({'a'} : Alphabet Char) 2 [⟨0, 'a', 1⟩] [1]).run =
        some (.ok d.flat) ∧
      d.states = 3 ∧ d.recognizes ['a'] = .ok true ∧
      ∃ p, d.Reaches ['a', 'a', 'a'] p ∧ p.val = 2 ∧ ¬ d.isFinal p) ∧
    ∃ d e, (withTrap .bits64 ({'a'} : Alphabet Char) 2 [⟨0, 'a', 1⟩, ⟨1, 'a', 0⟩] [1]).run =
        some (.ok d) ∧
      (ofTransitions .bits64 {'a'} 2 [⟨0, 'a', 1⟩, ⟨1, 'a', 0⟩] [1]).run = some (.ok e) ∧
      d.states = 3 ∧ d.minimize = e.minimize := by
  have hword : ∀ a ∈ ['a'], a ∈ ({'a'} : Alphabet Char) := fun _ ha => ha
  constructor
  · obtain ⟨d, hmade⟩ : ∃ d, (withTrap .bits64 ({'a'} : Alphabet Char) 2 [⟨0, 'a', 1⟩] [1]).run =
        some (.ok d) := ⟨_, rfl⟩
    obtain ⟨_, _, _, hanswers, hfollows⟩ := withTrap_exact .bits64 .wraps {'a'} 2 [⟨0, 'a', 1⟩] [1]
    obtain ⟨hd, hwords, htrap, _⟩ := hanswers d hmade
    have hstep : GivenRun [⟨0, 'a', 1⟩] 0 ['a'] 1 := .cons List.mem_cons_self .nil
    refine ⟨d, hmade, (hfollows (.inr (by decide))).run_eq _ hmade, hd.states_eq,
      (hwords ['a'] true).mpr ⟨hword, ?_⟩, ?_⟩
    · exact iff_of_true rfl ⟨1, List.mem_singleton_self 1, hstep⟩
    · refine htrap ['a'] 1 'a' ['a'] hstep (hword 'a' List.mem_cons_self) ?_ hword
      rintro ⟨target, hedge⟩
      simp at hedge
  · obtain ⟨d, hmade⟩ : ∃ d, (withTrap .bits64 ({'a'} : Alphabet Char) 2
        [⟨0, 'a', 1⟩, ⟨1, 'a', 0⟩] [1]).run = some (.ok d) := ⟨_, rfl⟩
    obtain ⟨e, he⟩ : ∃ e, (ofTransitions .bits64 ({'a'} : Alphabet Char) 2
        [⟨0, 'a', 1⟩, ⟨1, 'a', 0⟩] [1]).run = some (.ok e) := ⟨_, rfl⟩
    obtain ⟨_, _, _, hanswers, _⟩ := withTrap_exact .bits64 .stops {'a'} 2
      [⟨0, 'a', 1⟩, ⟨1, 'a', 0⟩] [1]
    obtain ⟨hd, _, _, hsame⟩ := hanswers d hmade
    exact ⟨d, e, hmade, he, hd.states_eq, (hsame e he).2⟩

/-- Over the empty alphabet as many states as there are numbers are described without a fault. The
trap state is one too many for the machine, and where its number wraps around, no state is left. -/
theorem withTrap_without_number :
    (∀ fault, ¬ DescriptionFault (∅ : Alphabet Char) 18446744073709551615 [] [] fault) ∧
      (withTrap .bits64 (∅ : Alphabet Char) 18446744073709551615 [] []).run = none ∧
      (FlatDFA.withTrap? .bits64 .wraps (∅ : Alphabet Char) 18446744073709551615 [] []).run =
        some (.ok ⟨∅, .empty 0, ∅⟩) := by
  have hnone : ∀ fault, ¬ DescriptionFault (∅ : Alphabet Char) 18446744073709551615 [] [] fault :=
    not_descriptionFault_iff.mpr ⟨by decide, faultless_nil, faultless_nil⟩
  have hnumber : ¬ RoomForTrap .bits64 (∅ : Alphabet Char) 18446744073709551615 :=
    fun hroom => absurd hroom.1 (by decide)
  exact ⟨hnone, run_withTrap_eq_none hnumber hnone,
    FlatDFA.shows_withTrap?_maxNumber (m := .bits64) (by decide)⟩

end LanguageTheory.DFA
