import LanguageTheory.Proofs.Flat.Draft
import LanguageTheory.Proofs.NFA.Copy

/-!
# Editing drafts in place

A draft in arrays is written in place, and what a call has written stays when it is refused later on.
All checks of a call come before its first write, so it writes what the operation of that name makes
anew, whatever the arrays hold (`Edit.Realizes`). On a draft of the library no index is out of range,
and a call that is refused has written nothing (`Call.performs`). So whatever has been done to a
draft, it is one of the library (`Edited.exists_draft`), and what is spliced in is a copy apart from
all the rest (`edits_exact`).
-/

namespace LanguageTheory

variable {α : Type} [TotalOrd α] {β γ : Type}

/-- What reads a draft and writes it in place. It ends in `none` for an index out of range, and else
in a fault or a value, with the draft as it has become by then. -/
abbrev Edit (α : Type) [TotalOrd α] (β : Type) :=
  ExceptT (AutomatonFault α) (StateT (FlatNFA α) Option) β

namespace Edit

open AutomatonFault

/-- How the edit of a draft ends. -/
def outcome (edit : Edit α β) (b : FlatNFA α) :
    Option (Except (AutomatonFault α) β × FlatNFA α) :=
  edit.run.run b

/-- Asks something about the draft. -/
def ask (question : FlatNFA α → Checked (AutomatonFault α) β) : Edit α β :=
  ExceptT.mk fun b => (question b).run.map fun answer => (answer, b)

/-- Writes the draft. -/
def change (write : FlatNFA α → Option (FlatNFA α)) : Edit α Unit :=
  ExceptT.mk fun b => (write b).map fun c => (.ok (), c)

/-! ## Operations -/

/-- Adds a state: an entry for its epsilon edges, then a row. -/
def addState : Edit α Nat := do
  change fun b => some { b with epsilon := b.epsilon.push ∅ }
  change fun b => some { b with labelled := b.labelled.push ∅ }
  ask fun b => pure (b.labelled.height - 1)

/-- Adds a transition between states that are there, on a symbol of the alphabet. -/
def addTransition (edge : Transition α) : Edit α Unit := do
  let source ← ask fun b => FlatNFA.checkState b.epsilon.size edge.source
  let target ← ask fun b => FlatNFA.checkState b.epsilon.size edge.target
  let letter ← ask fun b => do
    let letter ← requireLetter b.alphabet edge.symbol
    return letter.val
  change fun b => do
    let targets ← b.labelled.get? source letter
    let labelled ← b.labelled.set? source letter (insert target targets)
    return { b with labelled }

/-- Adds an epsilon edge between states that are there. -/
def addEpsilon (source target : Nat) : Edit α Unit := do
  let source ← ask fun b => FlatNFA.checkState b.epsilon.size source
  let target ← ask fun b => FlatNFA.checkState b.epsilon.size target
  change fun b => do
    let targets ← b.getEpsilon? source
    b.setEpsilon? source (insert target targets)

/-- Marks a state that is there as final. -/
def markFinal (state : Nat) : Edit α Unit := do
  let state ← ask fun b => FlatNFA.checkState b.epsilon.size state
  change fun b => some { b with finals := insert state b.finals }

/-- Copies another draft over the same alphabet behind the own states, state by state, and tells how
many states there were. -/
def splice (other : FlatNFA α) : Edit α Nat := do
  ask fun b => if other.alphabet = b.alphabet then pure () else throw .alphabetMismatch
  let offset ← ask fun b => pure b.epsilon.size
  (List.range other.labelled.height).forM fun state =>
    change fun b => other.copyState? offset b state
  return offset

/-! ## Outcomes -/

section Outcomes

variable {edit : Edit α β} {next : β → Edit α γ} {b c : FlatNFA α} {x : β}
  {fault : AutomatonFault α}

/-- What follows goes on from the draft as it has become. -/
theorem outcome_bind_ok (h : edit.outcome b = some (.ok x, c)) :
    outcome (edit >>= next) b = (next x).outcome c := by
  have hrun : edit b = some (.ok x, c) := h
  simp only [outcome, bind, ExceptT.bind, ExceptT.mk, StateT.bind, ExceptT.run, StateT.run, hrun]
  rfl

/-- A fault does not undo what was written before it. -/
theorem outcome_bind_error (h : edit.outcome b = some (.error fault, c)) :
    outcome (edit >>= next) b = some (.error fault, c) := by
  have hrun : edit b = some (.error fault, c) := h
  simp only [outcome, bind, ExceptT.bind, ExceptT.mk, StateT.bind, ExceptT.run, StateT.run, hrun]
  rfl

theorem outcome_bind_none (h : edit.outcome b = none) : outcome (edit >>= next) b = none := by
  have hrun : edit b = none := h
  simp only [outcome, bind, ExceptT.bind, ExceptT.mk, StateT.bind, ExceptT.run, StateT.run, hrun]
  rfl

theorem outcome_ask (question : FlatNFA α → Checked (AutomatonFault α) β) (b : FlatNFA α) :
    (ask question).outcome b = (question b).run.map fun answer => (answer, b) := rfl

theorem outcome_change (write : FlatNFA α → Option (FlatNFA α)) (b : FlatNFA α) :
    (change write).outcome b = (write b).map fun c => (.ok (), c) := rfl

/-- Writes one after the other. -/
theorem outcome_forM_change {ι : Type} (write : ι → FlatNFA α → Option (FlatNFA α)) (l : List ι)
    (b : FlatNFA α) : outcome (l.forM fun i => change (write i)) b =
      (l.foldlM (fun b i => write i b) b).map fun c => (.ok (), c) := by
  induction l generalizing b with
  | nil => rfl
  | cons i l ih =>
      have hfirst := outcome_change (write i) b
      rw [List.foldlM_cons]
      cases hwrite : write i b with
      | none =>
          rw [hwrite] at hfirst
          exact outcome_bind_none hfirst
      | some c =>
          rw [hwrite] at hfirst
          exact (outcome_bind_ok hfirst).trans (ih c)

end Outcomes

/-- How an edit ends that writes last: in a fault, with the draft as it was, or in the value, with the
draft that has been made. -/
def ending (b : FlatNFA α) (value : β) :
    Except (AutomatonFault α) (FlatNFA α) → Except (AutomatonFault α) β × FlatNFA α
  | .ok c => (.ok value, c)
  | .error fault => (.error fault, b)

/-- The edit writes in place what the call makes anew. -/
def Realizes (edit : Edit α β) (b : FlatNFA α) (value : β)
    (call : Checked (AutomatonFault α) (FlatNFA α)) : Prop :=
  edit.outcome b = call.run.map (ending b value)

/-- The edit of a draft ends as an operation of the library: in its fault, with the draft as it was, or
in the value, with the draft that the operation makes. -/
def Performs (edit : Edit α β) (b : NFA.Draft α) (value : β)
    (answer : Except (AutomatonFault α) (NFA.Draft α)) : Prop :=
  edit.outcome b.flat = some (match answer with
    | .ok c => (.ok value, c.flat)
    | .error fault => (.error fault, b.flat))

namespace Realizes

variable {b : FlatNFA α} {value : β}

theorem map {edit : Edit α β} {f : β → γ} {call : Checked (AutomatonFault α) (FlatNFA α)}
    (h : Realizes edit b value call) : Realizes (f <$> edit) b (f value) call := by
  rw [Realizes] at h ⊢
  cases hrun : call.run with
  | none =>
      rw [hrun] at h
      exact outcome_bind_none h
  | some answer =>
      rw [hrun] at h
      cases answer with
      | error fault => exact outcome_bind_error h
      | ok c => exact outcome_bind_ok h

/-- What has been asked has written nothing, so the draft is as it was if there is a fault here or
later on. -/
theorem ask {question : FlatNFA α → Checked (AutomatonFault α) γ} {next : γ → Edit α β}
    {after : γ → Checked (AutomatonFault α) (FlatNFA α)}
    (hnext : ∀ x, question b = pure x → Realizes (next x) b value (after x)) :
    Realizes (Edit.ask question >>= next) b value (question b >>= after) := by
  have houtcome := outcome_ask question b
  cases hrun : question b with
  | none =>
      rw [hrun] at houtcome
      exact outcome_bind_none houtcome
  | some answer =>
      rw [hrun] at houtcome
      -- an answer is passed on with the draft that the question was asked about
      cases answer with
      | error fault => exact outcome_bind_error houtcome
      | ok x => exact (outcome_bind_ok houtcome).trans (hnext x hrun)

theorem change {write : FlatNFA α → Option (FlatNFA α)} :
    Realizes (Edit.change write) b () (liftM (write b)) := by
  rw [Realizes, outcome_change]
  cases write b <;> rfl

theorem forM_change {ι : Type} {write : ι → FlatNFA α → Option (FlatNFA α)} {l : List ι} :
    Realizes (l.forM fun i => Edit.change (write i)) b ()
      (liftM (l.foldlM (fun b i => write i b) b)) := by
  rw [Realizes, outcome_forM_change]
  cases l.foldlM (fun b i => write i b) b <;> rfl

/-- The operation of the library that the call shows ends the edit. -/
theorem performs {edit : Edit α β} {b : NFA.Draft α}
    {call : Checked (AutomatonFault α) (FlatNFA α)}
    {answer : Except (AutomatonFault α) (NFA.Draft α)} (h : Realizes edit b.flat value call)
    (hshows : Shows NFA.Draft.flat call answer) : Performs edit b value answer := by
  unfold Performs
  rw [h, hshows]
  cases answer <;> rfl

end Realizes

section Operations

variable (b : FlatNFA α)

theorem realizes_addState :
    Realizes addState b b.labelled.height (pure b.addState) := rfl

theorem realizes_addTransition (edge : Transition α) :
    Realizes (addTransition edge) b () (b.addTransition? edge) := by
  unfold addTransition FlatNFA.addTransition?
  apply Realizes.ask
  intro source _
  apply Realizes.ask
  intro target _
  -- the letter is read as a number, and then reading and writing its cell is one write
  have hletter : (do
      let letter ← requireLetter b.alphabet edge.symbol
      let targets ← b.labelled.get? source letter
      let labelled ← b.labelled.set? source letter (insert target targets)
      return { b with labelled } : Checked (AutomatonFault α) (FlatNFA α)) =
        (do
          let letter ← requireLetter b.alphabet edge.symbol
          return letter.val) >>= fun letter => liftM (do
            let targets ← b.labelled.get? source letter
            let labelled ← b.labelled.set? source letter (insert target targets)
            return { b with labelled }) := by
    simp only [bind_assoc, pure_bind, liftM_bind, liftM_pure]
  rw [hletter]
  apply Realizes.ask
  intro letter _
  exact Realizes.change

theorem realizes_addEpsilon (source target : Nat) :
    Realizes (addEpsilon source target) b () (b.addEpsilon? source target) := by
  unfold addEpsilon FlatNFA.addEpsilon?
  apply Realizes.ask
  intro source _
  apply Realizes.ask
  intro target _
  rw [← liftM_bind]
  exact Realizes.change

theorem realizes_markFinal (state : Nat) :
    Realizes (markFinal state) b () (b.markFinal? state) := by
  unfold markFinal FlatNFA.markFinal?
  apply Realizes.ask
  intro state _
  exact Realizes.change

/-- The states of the draft and of the copied one are told apart by the offset, which is taken before
the first copy is made. -/
theorem realizes_splice (other : FlatNFA α) :
    Realizes (splice other) b b.epsilon.size (b.splice? other) := by
  have hchecks : b.splice? other =
      (if other.alphabet = b.alphabet then pure () else throw .alphabetMismatch) >>= fun _ =>
        pure b.epsilon.size >>= fun offset =>
          liftM ((List.range other.labelled.height).foldlM (other.copyState? offset) b) := by
    unfold FlatNFA.splice?
    split <;> rfl
  rw [hchecks, splice]
  apply Realizes.ask
  intro _ _
  apply Realizes.ask
  intro offset hoffset
  -- nothing has been written when the offset is asked for
  obtain rfl : b.epsilon.size = offset := by
    injection hoffset with h
    injection h
  exact Realizes.forM_change.map

end Operations

end Edit

/-! ## Calls -/

/-- A call on a draft. -/
inductive Call (α : Type) [TotalOrd α] where
  | addState
  | addTransition (edge : Transition α)
  | addEpsilon (source target : Nat)
  | markFinal (state : Nat)
  | splice (other : NFA α)

namespace Call

/-- The call in place, with the number that it answers with if it does. -/
def perform : Call α → Edit α (Option Nat)
  | addState => some <$> Edit.addState
  | addTransition edge => (fun _ => none) <$> Edit.addTransition edge
  | addEpsilon source target => (fun _ => none) <$> Edit.addEpsilon source target
  | markFinal state => (fun _ => none) <$> Edit.markFinal state
  | splice other => some <$> Edit.splice other.flat

/-- The call on a draft of the library. -/
def apply (b : NFA.Draft α) : Call α → Except (AutomatonFault α) (NFA.Draft α)
  | addState => .ok b.addState
  | addTransition edge => b.addTransition edge
  | addEpsilon source target => b.addEpsilon source target
  | markFinal state => b.markFinal state
  | splice other => b.splice other.toDraft

/-- The calls that add states answer with the number of the first one. -/
def value (b : NFA.Draft α) : Call α → Option Nat
  | addState => some b.states
  | splice _ => some b.states
  | _ => none

/-- Every call ends. A call that is refused leaves the draft as it was. -/
theorem performs (call : Call α) (b : NFA.Draft α) :
    Edit.Performs call.perform b (call.value b) (call.apply b) := by
  cases call with
  | addState =>
      have hshows : Shows NFA.Draft.flat (pure b.flat.addState : Checked (AutomatonFault α) _)
          (.ok b.addState) := by
        rw [← NFA.Draft.flat_addState]
        exact .pure b.addState
      exact (Edit.realizes_addState b.flat).map.performs hshows
  | addTransition edge =>
      exact (Edit.realizes_addTransition b.flat edge).map.performs (NFA.Draft.shows_addTransition edge)
  | addEpsilon source target =>
      exact (Edit.realizes_addEpsilon b.flat source target).map.performs
        (NFA.Draft.shows_addEpsilon source target)
  | markFinal state =>
      exact (Edit.realizes_markFinal b.flat state).map.performs (NFA.Draft.shows_markFinal state)
  | splice other =>
      have hrealizes := Edit.realizes_splice b.flat other.flat
      rw [NFA.Draft.size_epsilon_flat] at hrealizes
      exact hrealizes.map.performs NFA.Draft.shows_splice

/-- Calls one after the other. -/
def performAll (calls : List (Call α)) : Edit α Unit :=
  calls.forM fun call => do
    let _ ← call.perform

theorem outcome_performAll {calls : List (Call α)} {b c : NFA.Draft α}
    (h : calls.foldlM (fun b call => call.apply b) b = .ok c) :
    (performAll calls).outcome b.flat = some (.ok (), c.flat) := by
  induction calls generalizing b with
  | nil =>
      obtain rfl := Except.ok.inj h
      rfl
  | cons call calls ih =>
      rw [List.foldlM_cons] at h
      cases hcall : call.apply b with
      | error fault =>
          rw [hcall] at h
          cases h
      | ok d =>
          rw [hcall] at h
          have hfirst := call.performs b
          rw [hcall] at hfirst
          have hdiscard : Edit.outcome (call.perform >>= fun _ => pure ()) b.flat =
              some (.ok (), d.flat) := Edit.outcome_bind_ok hfirst
          exact (Edit.outcome_bind_ok hdiscard).trans (ih h)

end Call

/-! ## Edited drafts -/

/-- What calls make of the draft without states, those that are refused included. -/
inductive Edited (A : Alphabet α) : FlatNFA α → Prop
  | empty : Edited A (.empty A)
  | call {b c : FlatNFA α} {call : Call α} {answer : Except (AutomatonFault α) (Option Nat)} :
      Edited A b → call.perform.outcome b = some (answer, c) → Edited A c

theorem exists_of_bind_eq_ok {ε ι κ : Type} {answer : Except ε ι} {next : ι → Except ε κ} {k : κ}
    (h : answer >>= next = .ok k) : ∃ i, answer = .ok i ∧ next i = .ok k := by
  cases answer with
  | error fault => cases h
  | ok i => exact ⟨i, rfl, h⟩

/-- No call changes the alphabet. -/
theorem Call.alphabet_eq {call : Call α} {b c : NFA.Draft α} (h : call.apply b = .ok c) :
    c.alphabet = b.alphabet := by
  cases call with
  | addState =>
      obtain rfl := Except.ok.inj h
      rfl
  | addTransition edge =>
      obtain ⟨source, _, hsource⟩ := exists_of_bind_eq_ok h
      obtain ⟨target, _, htarget⟩ := exists_of_bind_eq_ok hsource
      obtain ⟨letter, _, hletter⟩ := exists_of_bind_eq_ok htarget
      obtain rfl := Except.ok.inj hletter
      rfl
  | addEpsilon source target =>
      obtain ⟨source, _, hsource⟩ := exists_of_bind_eq_ok h
      obtain ⟨target, _, htarget⟩ := exists_of_bind_eq_ok hsource
      obtain rfl := Except.ok.inj htarget
      rfl
  | markFinal state =>
      obtain ⟨state, _, hstate⟩ := exists_of_bind_eq_ok h
      obtain rfl := Except.ok.inj hstate
      rfl
  | splice other =>
      have hsplice : b.splice other.toDraft = .ok c := h
      unfold NFA.Draft.splice at hsplice
      split at hsplice
      next =>
        obtain rfl := Except.ok.inj hsplice
        rfl
      next => cases hsplice

theorem Edited.foldlM {A : Alphabet α} {calls : List (Call α)} {b c : NFA.Draft α}
    (hb : Edited A b.flat) (h : calls.foldlM (fun b call => call.apply b) b = .ok c) :
    Edited A c.flat := by
  induction calls generalizing b with
  | nil =>
      obtain rfl := Except.ok.inj h
      exact hb
  | cons call calls ih =>
      rw [List.foldlM_cons] at h
      obtain ⟨d, hcall, hrest⟩ := exists_of_bind_eq_ok h
      have hperforms := call.performs b
      rw [hcall] at hperforms
      exact ih (hb.call hperforms) hrest

/-- Whatever has been done to it, it is a draft of the library. -/
theorem Edited.exists_draft {A : Alphabet α} {b : FlatNFA α} (h : Edited A b) :
    ∃ d : NFA.Draft α, d.flat = b ∧ d.alphabet = A := by
  induction h with
  | empty => exact ⟨.empty A, NFA.Draft.flat_empty A, rfl⟩
  | @call b c call answer _ houtcome ih =>
      obtain ⟨d, rfl, hA⟩ := ih
      have hperforms := houtcome.symm.trans (call.performs d)
      cases hanswer : call.apply d with
      | error fault =>
          rw [hanswer] at hperforms
          obtain ⟨_, rfl⟩ := Prod.mk.inj (Option.some.inj hperforms)
          exact ⟨d, rfl, hA⟩
      | ok e =>
          rw [hanswer] at hperforms
          obtain ⟨_, rfl⟩ := Prod.mk.inj (Option.some.inj hperforms)
          exact ⟨e, rfl, (Call.alphabet_eq hanswer).trans hA⟩

namespace NFA.Draft

variable {b c : Draft α} {n : NFA α}

/-- A new state before a copy, led into it; the copies of the given states are marked. -/
def enterBefore (b : Draft α) (n : NFA α) (marks : List Nat) : List (Call α) :=
  [.addState, .splice n, .addEpsilon b.states (b.states + 1)] ++
    marks.map fun q => .markFinal (b.states + 1 + q)

/-- A new state behind a copy, led into it; the copies of the given states are marked. -/
def enterAfter (b : Draft α) (n : NFA α) (marks : List Nat) : List (Call α) :=
  [.splice n, .addState, .addEpsilon (b.states + n.states) b.states] ++
    marks.map fun q => .markFinal (b.states + q)

/-- Splicing an automaton makes a draft with a copy apart from the rest, in which words lead from state
to state as in the automaton; the states and copies before are as they were. Entered from a new state,
with the copies of its final states marked, a copy answers every word as the automaton. -/
structure Isolates (b : Draft α) (n : NFA α) (c : Draft α) : Prop where
  outcome_splice : (Call.splice n).perform.outcome b.flat = some (.ok (some b.states), c.flat)
  isSplice : c.IsSplice b n
  statesFrom_eq : ∀ m : NFA α, m.toDraft = c → ∀ p < n.states, ∀ w,
    m.statesFrom (b.states + p) w = (n.statesFrom p w).map (shift b.states)
  path_own_iff : ∀ p < b.states, ∀ w q, c.Path p w q ↔ b.Path p w q
  holdsCopy : ∀ offset (other : Draft α), b.HoldsCopy offset other →
    offset + other.states ≤ b.states → c.HoldsCopy offset other
  recognizesFrom_before : ∀ marks, (∀ q, q ∈ marks ↔ q ∈ n.finals) → ∃ m : NFA α,
    (Call.performAll (b.enterBefore n marks)).outcome b.flat = some (.ok (), m.flat) ∧
      (∀ w, m.recognizesFrom b.states w = n.recognizes w) ∧
        (b.states = 0 → ∀ w, m.recognizes w = n.recognizes w)
  recognizesFrom_after : ∀ marks, (∀ q, q ∈ marks ↔ q ∈ n.finals) → ∃ m : NFA α,
    (Call.performAll (b.enterAfter n marks)).outcome b.flat = some (.ok (), m.flat) ∧
      ∀ w, m.recognizesFrom (b.states + n.states) w = n.recognizes w

theorem foldlM_markFinal {offset : Nat} {marks : List Nat} {b : Draft α} :
    (marks.map fun q => Call.markFinal (offset + q)).foldlM (fun b call => call.apply b) b =
      marks.foldlM (fun b q => b.markFinal (offset + q)) b := by
  rw [List.foldlM_map]
  rfl

section Entering

variable {marks : List Nat} (hmarks : ∀ q, q ∈ marks ↔ q ∈ n.finals)
include hmarks

theorem exists_enterBefore (halphabet : n.alphabet = b.alphabet) : ∃ m : NFA α,
    (Call.performAll (b.enterBefore n marks)).outcome b.flat = some (.ok (), m.flat) ∧
      ∀ w, m.recognizesFrom b.states w = n.recognizes w := by
  obtain ⟨c, hc, hsplice⟩ := exists_isSplice b.addState n halphabet
  have hhead := (isFresh_addState b).of_isSplice hsplice
  have hstates : b.addState.states = b.states + 1 := rfl
  obtain ⟨d, m, hd, hm, hanswers⟩ := hsplice.holdsCopy.exists_enter hsplice.states_eq.ge
    (fun q _ => hsplice.not_final q) hhead (fun p _ => by omega) hmarks
  refine ⟨m, Call.outcome_performAll ?_, hanswers⟩
  -- the calls that come before the marks are taken one by one
  rw [hstates] at hd
  rw [enterBefore, List.foldlM_append]
  simp only [List.foldlM_cons, List.foldlM_nil, Call.apply, hc, hd, bind, Except.bind]
  exact foldlM_markFinal.trans hm

theorem exists_enterAfter (halphabet : n.alphabet = b.alphabet) : ∃ m : NFA α,
    (Call.performAll (b.enterAfter n marks)).outcome b.flat = some (.ok (), m.flat) ∧
      ∀ w, m.recognizesFrom (b.states + n.states) w = n.recognizes w := by
  obtain ⟨c, hc, hsplice⟩ := exists_isSplice b n halphabet
  have hstates := hsplice.states_eq
  have hgrown : c.addState.states = c.states + 1 := rfl
  have hcopy : c.addState.HoldsCopy b.states n.toDraft :=
    hsplice.holdsCopy.of_edge_iff rfl fun _ _ _ _ => edge_addState_iff
  obtain ⟨d, m, hd, hm, hanswers⟩ := hcopy.exists_enter (by omega)
    (fun q _ => hsplice.not_final q) (isFresh_addState c) (fun p _ => by omega) hmarks
  rw [hstates] at hd hanswers
  refine ⟨m, Call.outcome_performAll ?_, hanswers⟩
  rw [enterAfter, List.foldlM_append]
  simp only [List.foldlM_cons, List.foldlM_nil, Call.apply, hc, hd, bind, Except.bind]
  exact foldlM_markFinal.trans hm

end Entering

theorem exists_isolates (halphabet : n.alphabet = b.alphabet) : ∃ c, Isolates b n c := by
  obtain ⟨c, hc, hsplice⟩ := exists_isSplice b n halphabet
  refine ⟨c, ?_, hsplice, ?_, ?_, ?_, ?_, ?_⟩
  · have hperforms := (Call.splice n).performs b
    have hanswer : (Call.splice n).apply b = .ok c := hc
    rw [hanswer] at hperforms
    exact hperforms
  · intro m hm p hp w
    subst hm
    exact hsplice.holdsCopy.statesFrom_eq hp
  · intro p hp w q
    exact hsplice.path_own_iff hp
  · intro offset other hother hin
    exact hsplice.holdsCopy_of_holdsCopy hother hin
  · intro marks hmarks
    obtain ⟨m, hm, hanswers⟩ := exists_enterBefore hmarks halphabet
    refine ⟨m, hm, hanswers, ?_⟩
    -- in a draft without states, the new state is the initial one
    intro hzero w
    rw [← recognizesFrom_zero, ← hzero, hanswers]
  · intro marks hmarks
    exact exists_enterAfter hmarks halphabet

end NFA.Draft

/-- Whatever has been done to a draft, every call on it ends, a call that is refused leaves it as it was,
and splicing copies automata over its alphabet, and no others, in isolation. -/
theorem edits_exact {A : Alphabet α} {b : FlatNFA α} (hb : Edited A b) :
    (∀ call : Call α, (∃ value c, call.perform.outcome b = some (.ok value, c)) ∨
      ∃ fault, call.perform.outcome b = some (.error fault, b)) ∧
    (∀ n : NFA α, n.alphabet ≠ A →
      (Call.splice n).perform.outcome b = some (.error .alphabetMismatch, b)) ∧
    ∃ d : NFA.Draft α, d.flat = b ∧ ∀ n : NFA α, n.alphabet = A → ∃ c, d.Isolates n c := by
  obtain ⟨d, rfl, rfl⟩ := hb.exists_draft
  refine ⟨?_, ?_, d, rfl, fun n hn => NFA.Draft.exists_isolates hn⟩
  · intro call
    have hperforms := call.performs d
    cases hanswer : call.apply d with
    | error fault =>
        rw [hanswer] at hperforms
        exact .inr ⟨fault, hperforms⟩
    | ok c =>
        rw [hanswer] at hperforms
        exact .inl ⟨call.value d, c.flat, hperforms⟩
  · intro n hn
    have hperforms := (Call.splice n).performs d
    have hanswer : (Call.splice n).apply d = .error .alphabetMismatch := if_neg hn
    rw [hanswer] at hperforms
    exact hperforms

/-- The automaton of one `a` or more, which goes back to its start by an epsilon edge. -/
def returning : NFA Char where
  toDraft := (NFA.Draft.empty (.ofList ['a', 'b'])).addStates 2
    |>.insertEdge ⟨0, by decide⟩ ⟨0, by decide⟩ ⟨1, by decide⟩
    |>.insertEpsilon ⟨1, by decide⟩ ⟨0, by decide⟩
    |>.insertFinal ⟨1, by decide⟩
  states_pos := by decide

/-- A draft that holds the automaton refuses a mark, and then a second copy is made and entered. -/
theorem edits_exact_refused : ∃ m : NFA Char,
    (Call.performAll [.addState, .addState, .addTransition ⟨0, 'a', 1⟩, .addEpsilon 1 0,
      .markFinal 1]).outcome (.empty (.ofList ['a', 'b'])) = some (.ok (), returning.flat) ∧
    (Call.markFinal 2).perform.outcome returning.flat =
      some (.error (.stateOutOfRange 2 2), returning.flat) ∧
    (Call.performAll [.addState, .splice returning, .addEpsilon 2 3, .markFinal 4]).outcome
      returning.flat = some (.ok (), m.flat) ∧
    m.recognizesFrom 2 ['a', 'a'] = .ok true ∧ m.recognizesFrom 2 [] = .ok false := by
  have hmade : [Call.addState, .addState, .addTransition ⟨0, 'a', 1⟩, .addEpsilon 1 0,
      .markFinal 1].foldlM (fun b call => call.apply b) (.empty (.ofList ['a', 'b'])) =
        .ok returning.toDraft := rfl
  have hrefused : (Call.markFinal 2).perform.outcome returning.flat =
      some (.error (.stateOutOfRange 2 2), returning.flat) := rfl
  have hempty := NFA.Draft.flat_empty (.ofList ['a', 'b'] : Alphabet Char)
  have hedited := Edited.foldlM (hempty ▸ Edited.empty) hmade
  obtain ⟨_, _, d, hd, hisolates⟩ := edits_exact (hedited.call hrefused)
  have hstates : d.states = 2 := by
    rw [← NFA.Draft.size_epsilon_flat, hd]
    rfl
  obtain ⟨c, hc⟩ := hisolates returning rfl
  have hmarks (q : Nat) : q ∈ [1] ↔ q ∈ returning.finals := by
    have hfinals : returning.finals = insert 1 ∅ := rfl
    rw [hfinals, SortedSet.mem_insert, List.mem_singleton,
      or_iff_left (SortedSet.not_mem_empty q)]
  obtain ⟨m, hm, hanswers, _⟩ := hc.recognizesFrom_before [1] hmarks
  rw [hd, NFA.Draft.enterBefore, hstates] at hm
  rw [hstates] at hanswers
  have hread : returning.Edge 0 (some 'a') 1 := ⟨⟨0, by decide⟩, rfl, by decide⟩
  have hback : 0 ∈ returning.epsilonTargets 1 := by decide
  have hinitial : returning.closure {0} = {0} := by
    refine SortedSet.closure_eq (by decide) (by decide) ?_
    simpa using SortedSet.mem_closure_singleton.mpr .refl
  refine ⟨m, ?_, hrefused, hm, ?_, ?_⟩
  · exact hempty ▸ Call.outcome_performAll hmade
  · rw [hanswers, NFA.recognizes_eq_ok_true_iff]
    exact ⟨1, by decide, .cons hread (.epsilon hback (.cons hread .nil))⟩
  · rw [hanswers]
    change Except.ok ((returning.closure {0}).meets returning.finals) = _
    rw [hinitial]
    rfl

end LanguageTheory
