import LanguageTheory.Proofs.Flat.Construction
import LanguageTheory.Proofs.Flat.Determinize
import LanguageTheory.Proofs.Flat.Minimize

/-!
# Runs of calls without promises

A workspace holds the drafts and automata made so far, and a command names its operands by their
places. A command that ends in a fault, or not at all, or names an operand that is not there, leaves
the workspace as it is. The run in arrays is that of the library (`runFlat_eq`): all that is made is
well formed and answers every question, and a command does not end only where it asks the machine
for too much (`run_wellFormed`). If numbers wrap around, this needs a number for every trap state
that is asked for. Without one an automaton without states is made, which is not minimized
(`run_without_number`).
-/

namespace LanguageTheory

/-- The drafts and automata made so far. -/
structure Workspace (δ ν κ : Type) where
  drafts : List δ
  nfas : List ν
  dfas : List κ

/-- A call, with the places of its operands. -/
inductive Command (α : Type) [TotalOrd α] where
  | draft (A : Alphabet α)
  | addState (draft : Nat)
  | addTransition (draft : Nat) (edge : Transition α)
  | addEpsilon (draft source target : Nat)
  | markFinal (draft state : Nat)
  | splice (draft nfa : Nat)
  | build (draft : Nat)
  | nfa (A : Alphabet α) (states : Nat) (edges : List (Transition α)) (epsilon : List (Nat × Nat))
      (finals : List Nat)
  | emptyLanguage (A : Alphabet α)
  | emptyWord (A : Alphabet α)
  | symbol (A : Alphabet α) (a : α)
  | concat (first second : Nat)
  | union (left right : Nat)
  | star (item : Nat)
  | compile (A : Alphabet α) (r : Regex α)
  | dfa (A : Alphabet α) (states : Nat) (edges : List (Transition α)) (finals : List Nat)
  | withTrap (A : Alphabet α) (states : Nat) (edges : List (Transition α)) (finals : List Nat)
  | toDFA (nfa : Nat)
  | minimize (dfa : Nat)
  | compileMinimal (A : Alphabet α) (r : Regex α)

namespace Command

variable {α : Type} [TotalOrd α]

/-- The machine has a number for a trap state that the command asks for. -/
def HasNumber (m : Machine) : Command α → Prop
  | .withTrap _ states _ _ => states + 1 ≤ m.maxNumber
  | _ => True

/-- The command makes an array of a size that depends on a number of states alone. -/
def AsksForRoom : Command α → Prop
  | .dfa .. => True
  | .withTrap .. => True
  | .minimize _ => True
  | .compileMinimal .. => True
  | _ => False

end Command

namespace Workspace

/-! ## Commands -/

section Operands

variable {m : Type → Type} [Monad m] {β δ ν κ : Type}

/-- Nothing has been made. -/
def empty : Workspace δ ν κ := ⟨[], [], []⟩

/-- Goes on with an operand, if it is there. -/
def withOperand (w : Workspace δ ν κ) (operands : List β) (place : Nat)
    (call : β → m (Workspace δ ν κ)) : m (Workspace δ ν κ) :=
  match operands[place]? with
  | none => pure w
  | some operand => call operand

/-- Replaces a draft by what a call makes of it. -/
def changeDraft (w : Workspace δ ν κ) (place : Nat) (call : δ → m δ) : m (Workspace δ ν κ) :=
  w.withOperand w.drafts place fun b => do
    let b ← call b
    return { w with drafts := w.drafts.set place b }

/-- Adds the nondeterministic automaton that a call makes. -/
def keepNFA (w : Workspace δ ν κ) (call : m ν) : m (Workspace δ ν κ) := do
  let n ← call
  return { w with nfas := w.nfas ++ [n] }

/-- Adds the deterministic automaton that a call makes. -/
def keepDFA (w : Workspace δ ν κ) (call : m κ) : m (Workspace δ ν κ) := do
  let d ← call
  return { w with dfas := w.dfas ++ [d] }

end Operands

variable {α : Type} [TotalOrd α]

/-- Carries out a command. -/
def exec (m : Machine) (w : Workspace (NFA.Draft α) (NFA α) (DFA α)) :
    Command α → Checked (AutomatonFault α) (Workspace (NFA.Draft α) (NFA α) (DFA α))
  | .draft A => pure { w with drafts := w.drafts ++ [.empty A] }
  | .addState b => w.changeDraft b fun b => pure b.addState
  | .addTransition b edge => w.changeDraft b fun b => liftM (b.addTransition edge)
  | .addEpsilon b source target => w.changeDraft b fun b => liftM (b.addEpsilon source target)
  | .markFinal b state => w.changeDraft b fun b => liftM (b.markFinal state)
  | .splice b n => w.withOperand w.nfas n fun n =>
      w.changeDraft b fun b => liftM (b.splice n.toDraft)
  | .build b => w.withOperand w.drafts b fun b => w.keepNFA (liftM b.build)
  | .nfa A states edges epsilon finals =>
      w.keepNFA (liftM (NFA.ofTransitions A states edges epsilon finals))
  | .emptyLanguage A => w.keepNFA (pure (.emptyLanguage A))
  | .emptyWord A => w.keepNFA (pure (.emptyWord A))
  | .symbol A a => w.keepNFA (liftM (NFA.symbol A a))
  | .concat first second => w.withOperand w.nfas first fun k =>
      w.withOperand w.nfas second fun n => w.keepNFA (liftM (k.concat n))
  | .union left right => w.withOperand w.nfas left fun k =>
      w.withOperand w.nfas right fun n => w.keepNFA (liftM (k.union n))
  | .star item => w.withOperand w.nfas item fun n => w.keepNFA (liftM n.star)
  | .compile A r => w.keepNFA (liftM (r.toNFA A))
  | .dfa A states edges finals => w.keepDFA (DFA.ofTransitions m A states edges finals)
  | .withTrap A states edges finals => w.keepDFA (DFA.withTrap m A states edges finals)
  | .toDFA n => w.withOperand w.nfas n fun n => w.keepDFA (pure n.toDFA)
  | .minimize d => w.withOperand w.dfas d fun d => w.keepDFA (liftM (d.minimizeOn? m))
  | .compileMinimal A r => w.keepDFA do
      let n ← r.toNFA A
      n.toDFA.minimizeOn? m

/-- Carries out a command in arrays. -/
def exec? (m : Machine) (mode : Overflow) (w : Workspace (FlatNFA α) (FlatNFA α) (FlatDFA α)) :
    Command α → Checked (AutomatonFault α) (Workspace (FlatNFA α) (FlatNFA α) (FlatDFA α))
  | .draft A => pure { w with drafts := w.drafts ++ [.empty A] }
  | .addState b => w.changeDraft b fun b => pure b.addState
  | .addTransition b edge => w.changeDraft b fun b => b.addTransition? edge
  | .addEpsilon b source target => w.changeDraft b fun b => b.addEpsilon? source target
  | .markFinal b state => w.changeDraft b fun b => b.markFinal? state
  | .splice b n => w.withOperand w.nfas n fun n => w.changeDraft b fun b => b.splice? n
  | .build b => w.withOperand w.drafts b fun b => w.keepNFA b.build?
  | .nfa A states edges epsilon finals =>
      w.keepNFA (FlatNFA.ofTransitions? A states edges epsilon finals)
  | .emptyLanguage A => w.keepNFA (pure (.emptyLanguage A))
  | .emptyWord A => w.keepNFA (pure (.emptyWord A))
  | .symbol A a => w.keepNFA (FlatNFA.symbol? A a)
  | .concat first second => w.withOperand w.nfas first fun k =>
      w.withOperand w.nfas second fun n => w.keepNFA (k.concat? n)
  | .union left right => w.withOperand w.nfas left fun k =>
      w.withOperand w.nfas right fun n => w.keepNFA (k.union? n)
  | .star item => w.withOperand w.nfas item fun n => w.keepNFA n.star?
  | .compile A r => w.keepNFA (FlatNFA.compile? A r)
  | .dfa A states edges finals =>
      w.keepDFA (FlatDFA.ofTransitions? m mode A states edges finals)
  | .withTrap A states edges finals =>
      w.keepDFA (FlatDFA.withTrap? m mode A states edges finals)
  | .toDFA n => w.withOperand w.nfas n fun n => w.keepDFA (liftM n.toDFA?)
  | .minimize d => w.withOperand w.dfas d fun d => w.keepDFA (liftM (d.minimizeOn? m))
  | .compileMinimal A r => w.keepDFA do
      let n ← FlatNFA.compile? A r
      let d ← n.toDFA?
      d.minimizeOn? m

/-- The workspace after a call, which leaves it as it is unless the call succeeds. -/
def after {ω : Type} (w : ω) (call : Checked (AutomatonFault α) ω) : ω :=
  match call.run with
  | some (.ok next) => next
  | _ => w

/-- The workspace after some commands. -/
def run (m : Machine) (commands : List (Command α)) :
    Workspace (NFA.Draft α) (NFA α) (DFA α) :=
  commands.foldl (fun w c => after w (w.exec m c)) empty

/-- The workspace after some commands in arrays. -/
def runFlat (m : Machine) (mode : Overflow) (commands : List (Command α)) :
    Workspace (FlatNFA α) (FlatNFA α) (FlatDFA α) :=
  commands.foldl (fun w c => after w (w.exec? m mode c)) empty

/-! ## Steps -/

/-- A workspace in arrays. -/
def flat (w : Workspace (NFA.Draft α) (NFA α) (DFA α)) :
    Workspace (FlatNFA α) (FlatNFA α) (FlatDFA α) :=
  ⟨w.drafts.map NFA.Draft.flat, w.nfas.map NFA.flat, w.dfas.map DFA.flat⟩

section Steps

variable {w : Workspace (NFA.Draft α) (NFA α) (DFA α)} {β γ : Type} {view : β → γ} {m : Machine}
  {mode : Overflow}

theorem follows_withOperand {operands : List β} {place : Nat}
    {call? : γ → Checked (AutomatonFault α) (Workspace (FlatNFA α) (FlatNFA α) (FlatDFA α))}
    {call : β → Checked (AutomatonFault α) (Workspace (NFA.Draft α) (NFA α) (DFA α))}
    (hcall : ∀ operand, Follows mode flat (call? (view operand)) (call operand)) :
    Follows mode flat (w.flat.withOperand (operands.map view) place call?)
      (w.withOperand operands place call) := by
  unfold withOperand
  rw [List.getElem?_map]
  cases operands[place]? with
  | none => exact Follows.pure w
  | some operand => exact hcall operand

theorem follows_changeDraft {place : Nat}
    {call? : FlatNFA α → Checked (AutomatonFault α) (FlatNFA α)}
    {call : NFA.Draft α → Checked (AutomatonFault α) (NFA.Draft α)}
    (hcall : ∀ b : NFA.Draft α, Follows mode NFA.Draft.flat (call? b.flat) (call b)) :
    Follows mode flat (w.flat.changeDraft place call?) (w.changeDraft place call) := by
  apply follows_withOperand
  intro b
  apply (hcall b).bind
  intro changed
  have hset : { w.flat with drafts := w.flat.drafts.set place changed.flat } =
      flat { w with drafts := w.drafts.set place changed } := by
    simp only [flat, List.map_set]
  rw [hset]
  exact Follows.pure _

theorem follows_keepNFA {call? : Checked (AutomatonFault α) (FlatNFA α)}
    {call : Checked (AutomatonFault α) (NFA α)} (hcall : Follows mode NFA.flat call? call) :
    Follows mode flat (w.flat.keepNFA call?) (w.keepNFA call) := by
  apply hcall.bind
  intro n
  have hkeep : { w.flat with nfas := w.flat.nfas ++ [n.flat] } =
      flat { w with nfas := w.nfas ++ [n] } := by
    simp only [flat, List.map_append, List.map_singleton]
  rw [hkeep]
  exact Follows.pure _

theorem follows_keepDFA {call? : Checked (AutomatonFault α) (FlatDFA α)}
    {call : Checked (AutomatonFault α) (DFA α)} (hcall : Follows mode DFA.flat call? call) :
    Follows mode flat (w.flat.keepDFA call?) (w.keepDFA call) := by
  apply hcall.bind
  intro d
  have hkeep : { w.flat with dfas := w.flat.dfas ++ [d.flat] } =
      flat { w with dfas := w.dfas ++ [d] } := by
    simp only [flat, List.map_append, List.map_singleton]
  rw [hkeep]
  exact Follows.pure _

/-- A command does in arrays what it does in the library. -/
theorem follows_exec {c : Command α} (hnumber : mode = .stops ∨ c.HasNumber m) :
    Follows mode flat (w.flat.exec? m mode c) (w.exec m c) := by
  cases c with
  | draft A =>
      have hkeep : { w.flat with drafts := w.flat.drafts ++ [FlatNFA.empty A] } =
          flat { w with drafts := w.drafts ++ [NFA.Draft.empty A] } := by
        simp only [flat, List.map_append, List.map_singleton, NFA.Draft.flat_empty]
      rw [exec?, hkeep]
      exact Follows.pure _
  | addState place =>
      apply follows_changeDraft
      intro b
      rw [← NFA.Draft.flat_addState]
      exact Follows.pure b.addState
  | addTransition place edge =>
      exact follows_changeDraft fun b => (NFA.Draft.shows_addTransition edge).follows
  | addEpsilon place source target =>
      exact follows_changeDraft fun b => (NFA.Draft.shows_addEpsilon source target).follows
  | markFinal place state =>
      exact follows_changeDraft fun b => (NFA.Draft.shows_markFinal state).follows
  | splice place operand =>
      apply follows_withOperand
      intro n
      exact follows_changeDraft fun b => NFA.Draft.shows_splice.follows
  | build place =>
      apply follows_withOperand
      intro b
      exact follows_keepNFA NFA.shows_build.follows
  | nfa A states edges epsilon finals =>
      exact follows_keepNFA (NFA.shows_ofTransitions A states edges epsilon finals).follows
  | emptyLanguage A =>
      apply follows_keepNFA
      rw [← NFA.flat_emptyLanguage]
      exact Follows.pure _
  | emptyWord A =>
      apply follows_keepNFA
      rw [← NFA.flat_emptyWord]
      exact Follows.pure _
  | symbol A a => exact follows_keepNFA (NFA.shows_symbol A a).follows
  | concat first second =>
      apply follows_withOperand
      intro k
      apply follows_withOperand
      intro n
      exact follows_keepNFA NFA.shows_concat.follows
  | union left right =>
      apply follows_withOperand
      intro k
      apply follows_withOperand
      intro n
      exact follows_keepNFA NFA.shows_union.follows
  | star item =>
      apply follows_withOperand
      intro n
      exact follows_keepNFA NFA.shows_star.follows
  | compile A r => exact follows_keepNFA (Regex.shows_toNFA A r).follows
  | dfa A states edges finals =>
      exact follows_keepDFA (DFA.follows_ofTransitions m mode A states edges finals)
  | withTrap A states edges finals =>
      exact follows_keepDFA (DFA.follows_withTrap m mode A states edges finals hnumber)
  | toDFA operand =>
      apply follows_withOperand
      intro n
      exact follows_keepDFA (Shows.fetch NFA.toDFA?_flat).follows
  | minimize operand =>
      apply follows_withOperand
      intro d
      exact follows_keepDFA (Follows.fetch DFA.minimizeOn?_flat)
  | compileMinimal A r =>
      apply follows_keepDFA
      apply (Regex.shows_toNFA A r).follows.bind
      intro n
      apply Follows.access NFA.toDFA?_flat
      exact Follows.fetch DFA.minimizeOn?_flat

theorem after_flat
    {call? : Checked (AutomatonFault α) (Workspace (FlatNFA α) (FlatNFA α) (FlatDFA α))}
    {call : Checked (AutomatonFault α) (Workspace (NFA.Draft α) (NFA α) (DFA α))}
    (hcall : Follows mode flat call? call) : after w.flat call? = (after w call).flat := by
  unfold after
  cases hanswer : call.run with
  | none =>
      have hne := hcall.run_ne_ok hanswer
      split
      next next hmade => exact absurd hmade (hne next)
      next => rfl
  | some result =>
      rw [hcall.run_eq result hanswer]
      cases result <;> rfl

/-- A run in arrays is that of the library. -/
theorem runFlat_eq {commands : List (Command α)}
    (hnumber : mode = .stops ∨ ∀ c ∈ commands, c.HasNumber m) :
    runFlat m mode commands = (run m commands).flat := by
  unfold runFlat run
  have hempty : (empty : Workspace (FlatNFA α) (FlatNFA α) (FlatDFA α)) = flat empty := rfl
  rw [hempty]
  generalize (empty : Workspace (NFA.Draft α) (NFA α) (DFA α)) = w
  induction commands generalizing w with
  | nil => rfl
  | cons c commands ih =>
      rw [List.foldl_cons, List.foldl_cons,
        after_flat (follows_exec (hnumber.imp_right fun h => h c List.mem_cons_self))]
      exact ih (hnumber.imp_right fun h d hd => h d (List.mem_cons_of_mem c hd)) _

end Steps

end Workspace

/-! ## Questions -/

/-- No question reads an index out of range, except for the closure of a set of states with one out
of range. -/
structure FlatNFA.Answers {α : Type} [TotalOrd α] (n : FlatNFA α) : Prop where
  recognizes : ∀ word, (n.recognizes? word).run.isSome
  acceptsEmpty : n.acceptsEmpty?.isSome
  step : ∀ state symbol, (n.step? state symbol).isSome
  targets : ∀ state symbol, (n.targets? state symbol).isSome
  toDFA : n.toDFA?.isSome
  closure : ∀ states, n.closure? states = none ↔ ∃ state ∈ states, n.labelled.height ≤ state

/-- No question reads an index out of range, and minimization asks for no more than an array with a
cell for every state. -/
structure FlatDFA.Answers {α : Type} [TotalOrd α] (m : Machine) (d : FlatDFA α) : Prop where
  recognizes : ∀ word, (d.recognizes? word).run.isSome
  transition : ∀ state symbol, (d.transition? state symbol).isSome
  reachable : d.reachable?.isSome
  minimize : d.minimize?.isSome
  minimizeOn : (d.minimizeOn? m).isSome ↔ d.table.height ≤ m.maxCells
  isMinimal : d.isMinimal?.isSome

section

variable {ε α β γ : Type} [TotalOrd α]

theorem Shows.isSome {view : β → γ} {call : Checked ε γ} {answer : Except ε β}
    (h : Shows view call answer) : call.run.isSome := by
  rw [h, Option.isSome_some]

theorem NFA.answers_flat (n : NFA α) : n.flat.Answers where
  recognizes word := (n.shows_recognizes word).isSome
  acceptsEmpty := by rw [acceptsEmpty?_flat, Option.isSome_some]
  step state symbol := by rw [step?_flat, Option.isSome_some]
  targets state symbol := by rw [targets?_flat, Option.isSome_some]
  toDFA := by rw [toDFA?_flat, Option.isSome_some]
  closure _ := closure?_flat_eq_none_iff

theorem DFA.answers_flat (m : Machine) (d : DFA α) : d.flat.Answers m where
  recognizes word := (d.shows_recognizes word).isSome
  transition state symbol := by rw [transition?_flat, Option.isSome_some]
  reachable := by rw [reachable?_flat, Option.isSome_some]
  minimize := by rw [minimize?_flat, Option.isSome_some]
  minimizeOn := by
    rw [minimizeOn?_flat, Option.isSome_map]
    exact isSome_minimizeOn?_iff
  isMinimal := by rw [isMinimal?_flat, Option.isSome_some]

end

namespace Workspace

variable {α : Type} [TotalOrd α] {m : Machine} {mode : Overflow}

/-! ## Commands that end -/

section Ends

variable {w : Workspace (NFA.Draft α) (NFA α) (DFA α)} {β : Type}

theorem run_withOperand_ne_none {operands : List β} {place : Nat}
    {call : β → Checked (AutomatonFault α) (Workspace (NFA.Draft α) (NFA α) (DFA α))}
    (hcall : ∀ operand, (call operand).run ≠ none) :
    (w.withOperand operands place call).run ≠ none := by
  unfold withOperand
  cases operands[place]? with
  | none => exact Option.some_ne_none _
  | some operand => exact hcall operand

theorem run_changeDraft_ne_none {place : Nat}
    {call : NFA.Draft α → Except (AutomatonFault α) (NFA.Draft α)} :
    (w.changeDraft (m := Checked (AutomatonFault α)) place fun b => liftM (call b)).run ≠
      none := by
  apply run_withOperand_ne_none
  intro b
  beta_reduce
  cases call b <;> exact Option.some_ne_none _

theorem run_keepNFA_ne_none {call : Except (AutomatonFault α) (NFA α)} :
    (w.keepNFA (m := Checked (AutomatonFault α)) (liftM call)).run ≠ none := by
  cases call <;> exact Option.some_ne_none _

/-- A command that asks for no room ends. -/
theorem run_exec_ne_none {c : Command α} (hc : ¬ c.AsksForRoom) : (w.exec m c).run ≠ none := by
  cases c with
  | draft A => exact Option.some_ne_none _
  | addState place => exact run_withOperand_ne_none fun b => Option.some_ne_none _
  | addTransition place edge => exact run_changeDraft_ne_none
  | addEpsilon place source target => exact run_changeDraft_ne_none
  | markFinal place state => exact run_changeDraft_ne_none
  | splice place operand => exact run_withOperand_ne_none fun n => run_changeDraft_ne_none
  | build place => exact run_withOperand_ne_none fun b => run_keepNFA_ne_none
  | nfa A states edges epsilon finals => exact run_keepNFA_ne_none
  | emptyLanguage A => exact Option.some_ne_none _
  | emptyWord A => exact Option.some_ne_none _
  | symbol A a => exact run_keepNFA_ne_none
  | concat first second =>
      exact run_withOperand_ne_none fun k => run_withOperand_ne_none fun n => run_keepNFA_ne_none
  | union left right =>
      exact run_withOperand_ne_none fun k => run_withOperand_ne_none fun n => run_keepNFA_ne_none
  | star item => exact run_withOperand_ne_none fun n => run_keepNFA_ne_none
  | compile A r => exact run_keepNFA_ne_none
  | toDFA operand => exact run_withOperand_ne_none fun n => Option.some_ne_none _
  | dfa => exact absurd trivial hc
  | withTrap => exact absurd trivial hc
  | minimize => exact absurd trivial hc
  | compileMinimal => exact absurd trivial hc

end Ends

/-- After any commands all that has been made is well formed, and answers without an index out of
range, and a further command ends unless it asks for room. If numbers wrap around, there must be a
number for every trap state. -/
theorem run_wellFormed (m : Machine) (mode : Overflow) (commands : List (Command α))
    (hnumber : mode = .stops ∨ ∀ c ∈ commands, c.HasNumber m) :
    ∃ w, runFlat m mode commands = w ∧ w = (run m commands).flat ∧
      (∀ b ∈ w.drafts, b.WellFormed) ∧
      (∀ n ∈ w.nfas, n.WellFormed ∧ 0 < n.labelled.height ∧ n.Answers) ∧
      (∀ d ∈ w.dfas, d.WellFormed ∧ 0 < d.table.height ∧ d.Answers m) ∧
      ∀ c, ¬ c.AsksForRoom → (w.exec? m mode c).run ≠ none := by
  refine ⟨_, runFlat_eq hnumber, rfl, ?_, ?_, ?_, ?_⟩
  · intro b hb
    obtain ⟨draft, _, hdraft⟩ := List.mem_map.mp hb
    exact NFA.Draft.exists_flat_iff.mp ⟨draft, hdraft⟩
  · intro n hn
    obtain ⟨nfa, _, hnfa⟩ := List.mem_map.mp hn
    obtain ⟨hformed, hpos⟩ := NFA.exists_flat_iff.mp ⟨nfa, hnfa⟩
    exact ⟨hformed, hpos, hnfa ▸ nfa.answers_flat⟩
  · intro d hd
    obtain ⟨dfa, _, hdfa⟩ := List.mem_map.mp hd
    obtain ⟨hformed, hpos⟩ := DFA.exists_flat_iff.mp ⟨dfa, hdfa⟩
    exact ⟨hformed, hpos, hdfa ▸ dfa.answers_flat m⟩
  · intro c hc
    have hfollows : Follows mode flat ((run m commands).flat.exec? m mode c)
        ((run m commands).exec m c) := by
      apply follows_exec
      cases c with
      | withTrap => exact absurd trivial hc
      | _ => exact .inr trivial
    obtain ⟨result, hresult⟩ := Option.ne_none_iff_exists'.mp (run_exec_ne_none hc)
    rw [hfollows.run_eq result hresult]
    exact Option.some_ne_none _

/-- An edge between states that are not there fails, and the run goes on with the draft as it was. -/
theorem run_wellFormed_draft : ∃ w, runFlat .bits64 .wraps
    [.draft (.ofList [0, 1]), .addEpsilon 0 0 5, .addState 0, .markFinal 0 0, .build 0, .toDFA 0,
      .withTrap (.ofList [0]) 2 [⟨0, 0, 1⟩] [1], .minimize 1] = w ∧
      w.drafts.length = 1 ∧ w.nfas.length = 1 ∧ w.dfas.length = 3 ∧
      (∀ n ∈ w.nfas, n.WellFormed ∧ n.finals = .ofList [0] ∧ n.Answers) ∧
      (∀ d ∈ w.dfas, d.WellFormed ∧ 0 < d.table.height ∧ d.Answers .bits64) ∧
      (w.exec? .bits64 .wraps (.toDFA 7)).run ≠ none := by
  obtain ⟨w, hrun, hflat, _, hnfas, hdfas, hends⟩ := run_wellFormed .bits64 .wraps
    [.draft (.ofList [0, 1]), .addEpsilon 0 0 5, .addState 0, .markFinal 0 0, .build 0, .toDFA 0,
      .withTrap (.ofList [0]) 2 [⟨0, 0, 1⟩] [1], .minimize 1]
    (.inr (by simp [Command.HasNumber, Machine.bits64]))
  refine ⟨w, hrun, hflat ▸ rfl, hflat ▸ rfl, hflat ▸ rfl, ?_, hdfas, hends (.toDFA 7) id⟩
  intro n hn
  obtain ⟨hformed, _, hanswers⟩ := hnfas n hn
  refine ⟨hformed, ?_, hanswers⟩
  subst hflat
  obtain rfl := List.mem_singleton.mp hn
  rfl

/-- Over no symbols a trap is asked for beside as many states as there are numbers. Overflow ends
the command, and where numbers wrap around, it makes an automaton without states, which is not
minimized. -/
theorem run_without_number :
    ((empty : Workspace (FlatNFA Char) (FlatNFA Char) (FlatDFA Char)).exec? .bits64 .stops
      (.withTrap ∅ 18446744073709551615 [] [])).run = none ∧
    ∃ d : FlatDFA Char,
      (runFlat .bits64 .wraps [.withTrap ∅ 18446744073709551615 [] []]).dfas = [d] ∧
        d.table.height = 0 ∧ d.minimize? = none := by
  constructor
  · rfl
  · have htrap : FlatDFA.withTrap? .bits64 .wraps (∅ : Alphabet Char) 18446744073709551615 [] [] =
        pure ⟨∅, .empty 0, ∅⟩ :=
      FlatDFA.shows_withTrap?_maxNumber (m := .bits64) (by decide)
    refine ⟨⟨∅, .empty 0, ∅⟩, ?_, rfl, FlatDFA.minimize?_without_states⟩
    rw [runFlat, List.foldl_cons, List.foldl_nil, exec?, keepDFA, htrap, pure_bind]
    rfl

end Workspace

end LanguageTheory
