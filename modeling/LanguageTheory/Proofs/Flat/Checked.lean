import LanguageTheory.Machine
import Mathlib.Data.List.FinRange

/-!
# Checked calls

A call that reads and writes arrays may end in an index out of range, in a fault, or in a value.
`Shows` says that it ends in no index out of range, and that its fault or value is that of a
definition of the library, seen through a view of the values. What is shown part by part is shown
of the whole (`Shows.bind`, `Shows.foldlM`).
-/

namespace LanguageTheory

/-! ## Accesses and loops -/

/-- An access that succeeds is passed. -/
theorem access_eq_some {β γ : Type} {read : Option β} {b : β} {next : β → Option γ} {c : γ}
    (hread : read = some b) (hnext : next b = some c) : read.bind next = some c := by
  subst hread
  exact hnext

/-- A loop over the numbers below `n` whose states are known one by one. -/
theorem foldlM_range {m : Type → Type} [Monad m] [LawfulMonad m] {σ : Type} {f : σ → Nat → m σ}
    {s : Nat → σ} {n : Nat} (hstep : ∀ k < n, f (s k) k = pure (s (k + 1))) :
    (List.range n).foldlM f (s 0) = pure (s n) := by
  induction n with
  | zero => rfl
  | succ n ih =>
      have hbefore := ih fun k hk => hstep k (Nat.lt_succ_of_lt hk)
      rw [List.range_succ, List.foldlM_append, hbefore, pure_bind, List.foldlM_cons,
        hstep n (Nat.lt_succ_self n), pure_bind, List.foldlM_nil]

/-- A loop that keeps to states on which its steps succeed. -/
theorem foldlM_eq_some {β ι : Type} {step? : β → ι → Option β} {step : β → ι → β}
    {P : β → Prop} {l : List ι} {b : β}
    (hstep : ∀ b, P b → ∀ i ∈ l, step? b i = some (step b i) ∧ P (step b i)) (hb : P b) :
    l.foldlM step? b = some (l.foldl step b) ∧ P (l.foldl step b) := by
  induction l generalizing b with
  | nil => exact ⟨rfl, hb⟩
  | cons i l ih =>
      obtain ⟨hread, hknown⟩ := hstep b hb i List.mem_cons_self
      rw [List.foldlM_cons, hread, List.foldl_cons]
      exact ih (fun c hc j hj => hstep c hc j (List.mem_cons_of_mem i hj)) hknown

/-- A loop that comes to its end has taken a step with everything that it goes through. -/
theorem exists_step_of_foldlM_eq_some {β ι : Type} {step? : β → ι → Option β} {l : List ι}
    {b c : β} {i : ι} (h : l.foldlM step? b = some c) (hi : i ∈ l) :
    ∃ before after, step? before i = some after := by
  induction l generalizing b with
  | nil => exact absurd hi List.not_mem_nil
  | cons j l ih =>
      rw [List.foldlM_cons, Option.bind_eq_bind, Option.bind_eq_some_iff] at h
      obtain ⟨next, hstep, hrest⟩ := h
      rcases List.mem_cons.mp hi with rfl | hl
      · exact ⟨b, next, hstep⟩
      · exact ih hrest hl

/-- A loop whose states are seen through a view, as are the numbers that it goes through. -/
theorem foldlM_map_eq_some {β γ ι κ : Type} {view : β → γ} {item : ι → κ}
    {step? : γ → κ → Option γ} {step : β → ι → β} {l : List ι} {b : β}
    (hstep : ∀ b, ∀ i ∈ l, step? (view b) (item i) = some (view (step b i))) :
    (l.map item).foldlM step? (view b) = some (view (l.foldl step b)) := by
  induction l generalizing b with
  | nil => rfl
  | cons i l ih =>
      rw [List.map_cons, List.foldlM_cons, hstep b i List.mem_cons_self, List.foldl_cons]
      exact ih fun c j hj => hstep c j (List.mem_cons_of_mem i hj)

section Lists

variable {ι κ β : Type} {l : List ι} {f? : ι → Option β} {f : ι → β} {test? : ι → Option Bool}
  {test : ι → Bool}

theorem mapM_eq_some (h : ∀ i ∈ l, f? i = some (f i)) : l.mapM f? = some (l.map f) := by
  induction l with
  | nil => rfl
  | cons i l ih =>
      have hrest := ih fun j hj => h j (List.mem_cons_of_mem i hj)
      rw [List.mapM_cons, h i List.mem_cons_self, hrest]
      rfl

theorem filterMapM_eq_some {f? : ι → Option (Option β)} {f : ι → Option β}
    (h : ∀ i ∈ l, f? i = some (f i)) : l.filterMapM f? = some (l.filterMap f) := by
  induction l with
  | nil => rfl
  | cons i l ih =>
      rw [List.filterMapM_cons, h i List.mem_cons_self, List.filterMap_cons,
        ih fun j hj => h j (List.mem_cons_of_mem i hj)]
      cases f i <;> rfl

theorem anyM_map_eq_some {view : κ → ι} {l : List κ} {test : κ → Bool}
    (h : ∀ i ∈ l, test? (view i) = some (test i)) :
    (l.map view).anyM test? = some (l.any test) := by
  induction l with
  | nil => rfl
  | cons i l ih =>
      rw [List.map_cons, List.anyM, h i List.mem_cons_self, List.any_cons,
        ih fun j hj => h j (List.mem_cons_of_mem i hj)]
      cases test i <;> rfl

theorem allM_map_eq_some {view : κ → ι} {l : List κ} {test : κ → Bool}
    (h : ∀ i ∈ l, test? (view i) = some (test i)) :
    (l.map view).allM test? = some (l.all test) := by
  induction l with
  | nil => rfl
  | cons i l ih =>
      rw [List.map_cons, List.allM, h i List.mem_cons_self, List.all_cons,
        ih fun j hj => h j (List.mem_cons_of_mem i hj)]
      cases test i <;> rfl

theorem findM?_map_eq_some {view : κ → ι} {l : List κ} {test : κ → Bool}
    (h : ∀ i ∈ l, test? (view i) = some (test i)) :
    (l.map view).findM? test? = some ((l.find? test).map view) := by
  induction l with
  | nil => rfl
  | cons i l ih =>
      rw [List.map_cons, List.findM?, h i List.mem_cons_self, List.find?_cons,
        ih fun j hj => h j (List.mem_cons_of_mem i hj)]
      cases test i <;> rfl

theorem findSomeM?_map_eq_some {view : κ → ι} {l : List κ} {f? : ι → Option (Option β)}
    {f : κ → Option β} (h : ∀ i ∈ l, f? (view i) = some (f i)) :
    (l.map view).findSomeM? f? = some (l.findSome? f) := by
  induction l with
  | nil => rfl
  | cons i l ih =>
      rw [List.map_cons, List.findSomeM?, h i List.mem_cons_self, List.findSome?_cons,
        ih fun j hj => h j (List.mem_cons_of_mem i hj)]
      cases f i <;> rfl

/-- A search that comes to its end without a find has passed everything. -/
theorem eq_some_false_of_findM?_eq_none {i : ι} (h : l.findM? test? = some none) (hi : i ∈ l) :
    test? i = some false := by
  induction l with
  | nil => exact absurd hi List.not_mem_nil
  | cons j l ih =>
      rw [List.findM?, Option.bind_eq_bind, Option.bind_eq_some_iff] at h
      obtain ⟨found, hfound, hrest⟩ := h
      cases found with
      | true => cases hrest
      | false =>
          rcases List.mem_cons.mp hi with rfl | hl
          · exact hfound
          · exact ih hrest hl

theorem eq_some_none_of_findSomeM?_eq_none {i : ι} {f? : ι → Option (Option β)}
    (h : l.findSomeM? f? = some none) (hi : i ∈ l) : f? i = some none := by
  induction l with
  | nil => exact absurd hi List.not_mem_nil
  | cons j l ih =>
      rw [List.findSomeM?, Option.bind_eq_bind, Option.bind_eq_some_iff] at h
      obtain ⟨found, hfound, hrest⟩ := h
      cases found with
      | some b => cases hrest
      | none =>
          rcases List.mem_cons.mp hi with rfl | hl
          · exact hfound
          · exact ih hrest hl

end Lists

/-! ## Calls -/

namespace Checked

variable {ε ι β γ : Type} {l : List ι} {b : β} {c : γ}

theorem eq_some_of_run_liftM_eq_ok {read : Option β}
    (h : (liftM read : Checked ε β).run = some (.ok b)) : read = some b := by
  cases read with
  | none => cases h
  | some d =>
      cases h
      rfl

/-- What makes something out of a first result has made that result. -/
theorem exists_of_run_bind_eq_ok {call : Checked ε β} {next : β → Checked ε γ}
    (hmade : (call >>= next).run = some (.ok c)) :
    ∃ b, call.run = some (.ok b) ∧ (next b).run = some (.ok c) := by
  rw [ExceptT.run_bind, Option.bind_eq_bind, Option.bind_eq_some_iff] at hmade
  obtain ⟨result, hresult, hmade⟩ := hmade
  cases result with
  | error fault => cases hmade
  | ok b => exact ⟨b, hresult, hmade⟩

/-- What the steps of a loop keep, the loop keeps. -/
theorem foldlM_induction {step : β → ι → Checked ε β} {P : β → Prop} {after : β} (hb : P b)
    (hstep : ∀ b i next, P b → (step b i).run = some (.ok next) → P next)
    (hmade : (l.foldlM step b).run = some (.ok after)) : P after := by
  induction l generalizing b with
  | nil =>
      cases hmade
      exact hb
  | cons i l ih =>
      rw [List.foldlM_cons] at hmade
      obtain ⟨next, hnext, hrest⟩ := exists_of_run_bind_eq_ok hmade
      exact ih (hstep b i next hb hnext) hrest

end Checked

/-- The call ends in the answer, seen through `view`. -/
def Shows {ε β γ : Type} (view : β → γ) (call : Checked ε γ) (answer : Except ε β) : Prop :=
  call.run = some (answer.map view)

namespace Shows

variable {ε ι β γ β' γ' : Type} {view : β → γ} {view' : β' → γ'}

theorem pure (b : β) : Shows (ε := ε) view (Pure.pure (view b)) (.ok b) := rfl

theorem throw (fault : ε) : Shows view (MonadExcept.throw fault) (.error fault) := rfl

theorem bind {call : Checked ε γ} {answer : Except ε β} {next : γ → Checked ε γ'}
    {after : β → Except ε β'} (hcall : Shows view call answer)
    (hnext : ∀ b, Shows view' (next (view b)) (after b)) :
    Shows view' (call >>= next) (answer >>= after) := by
  have hrun : call = ExceptT.mk (some (answer.map view)) := hcall
  subst hrun
  cases answer with
  | error fault => rfl
  | ok b => exact hnext b

theorem access {read : Option γ} {c : γ} {next : γ → Checked ε γ'} {answer : Except ε β'}
    (hread : read = some c) (hnext : Shows view' (next c) answer) :
    Shows view' ((liftM read : Checked ε γ) >>= next) answer := by
  subst hread
  exact hnext

theorem fetch {read : Option γ} {b : β} (hread : read = some (view b)) :
    Shows view (liftM read : Checked ε γ) (.ok b) := by
  subst hread
  rfl

theorem check {answer : Except ε β} : Shows id (liftM answer : Checked ε β) answer := by
  cases answer <;> rfl

theorem foldlM {step : γ → ι → Checked ε γ} {after : β → ι → Except ε β} {l : List ι}
    (hstep : ∀ b, ∀ i ∈ l, Shows view (step (view b) i) (after b i)) (b : β) :
    Shows view (l.foldlM step (view b)) (l.foldlM after b) := by
  induction l generalizing b with
  | nil => exact .pure b
  | cons i l ih =>
      rw [List.foldlM_cons, List.foldlM_cons]
      apply (hstep b i List.mem_cons_self).bind
      intro c
      exact ih (fun d j hj => hstep d j (List.mem_cons_of_mem i hj)) c

end Shows

end LanguageTheory
