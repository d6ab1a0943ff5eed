import LanguageTheory.Proofs.NFA.Determinize

/-!
# Recognition, steps and the empty word by paths

Three questions go through the sets of states differently: recognition closes the first set and the
set after every letter, a step closes one state before and after its letter, and the empty word is
asked of the first set alone. All three are questions about paths (`answersByPaths`). A path over
several symbols is cut behind its first symbol, so whole words can also be read by steps from one
state to the next (`mem_readSteps_iff`), and a run may stop as soon as no state is left
(`readUntilEmpty_eq_run`).
-/

namespace LanguageTheory.NFA

variable {α : Type} [TotalOrd α] {n : NFA α} {states : SortedSet Nat} {w : List α} {a : α}
  {p q : Nat}

/-! ## Steps -/

theorem step?_eq_none_iff : n.step? p a = none ↔ ¬ (p < n.states ∧ a ∈ n.alphabet) := by
  rw [← SortedSet.isSome_rank?_iff, step?]
  cases n.alphabet.rank? a with
  | none => simp
  | some letter => simp

/-- A step leads to the ends of the paths over its symbol. -/
theorem mem_of_step?_eq_some (hstep : n.step? p a = some states) :
    q ∈ states ↔ n.Path p [a] q := by
  unfold step? at hstep
  split at hstep
  next => cases hstep
  next letter hletter =>
    obtain rfl := SortedSet.rank?_eq_some_iff.mp hletter
    split at hstep
    next =>
      obtain rfl := Option.some.inj hstep
      have hrun : n.advance (n.closure {p}) letter = n.run (n.closure {p}) [letter] := rfl
      rw [hrun, mem_run_closure]
      constructor
      · rintro ⟨state, hstate, hpath⟩
        rwa [← SortedSet.mem_singleton.mp hstate]
      · intro hpath
        exact ⟨p, SortedSet.mem_singleton.mpr rfl, hpath⟩
    next => cases hstep

/-- A path over a word that is not empty starts at a state, and with a symbol of the alphabet. -/
theorem lt_and_mem_of_path_cons (hpath : n.Path p (a :: w) q) : p < n.states ∧ a ∈ n.alphabet := by
  generalize hword : a :: w = word at hpath
  induction hpath with
  | nil => cases hword
  | @cons p q r label rest hedge _ ih =>
      refine ⟨hedge.source_lt, ?_⟩
      cases label with
      | none => exact (ih hword).2
      | some b =>
          obtain ⟨rfl, _⟩ := List.cons.inj hword
          obtain ⟨letter, rfl, _⟩ := hedge
          exact n.alphabet.get_mem letter

theorem mem_getD_step?_iff : q ∈ (n.step? p a).getD ∅ ↔ n.Path p [a] q := by
  cases hstep : n.step? p a with
  | some states => exact mem_of_step?_eq_some hstep
  | none =>
      refine iff_of_false (SortedSet.not_mem_empty q) ?_
      intro hpath
      exact step?_eq_none_iff.mp hstep (lt_and_mem_of_path_cons hpath)

/-! ## Reading by steps -/

/-- The states that steps over a symbol lead to from the states of a set. -/
def stepAll (n : NFA α) (states : SortedSet Nat) (a : α) : SortedSet Nat :=
  states.bind fun p => (n.step? p a).getD ∅

/-- The states that steps over a word lead to from the states of a set. -/
def readSteps (n : NFA α) (states : SortedSet Nat) (w : List α) : SortedSet Nat :=
  w.foldl n.stepAll states

theorem mem_stepAll_iff : q ∈ n.stepAll states a ↔ ∃ p ∈ states, n.Path p [a] q := by
  simp only [stepAll, SortedSet.mem_bind, mem_getD_step?_iff]

/-- A path is cut behind its first symbol. -/
theorem path_cons_iff : n.Path p (a :: w) q ↔ ∃ r, n.Path p [a] r ∧ n.Path r w q := by
  constructor
  · intro hpath
    obtain ⟨s, r, hlinked, hedge, hrest⟩ := exists_edge_of_path_cons hpath
    exact ⟨r, (path_of_linked hlinked).append (.cons hedge .nil), hrest⟩
  · rintro ⟨r, hfirst, hrest⟩
    exact hfirst.append hrest

/-- Steps over a word that is not empty lead to the ends of the paths over it. The empty word is
read by no step, and so without the epsilon edges. -/
theorem mem_readSteps_iff (hw : w ≠ []) :
    q ∈ n.readSteps states w ↔ ∃ p ∈ states, n.Path p w q := by
  induction w generalizing states with
  | nil => exact absurd rfl hw
  | cons a w ih =>
      have hread : n.readSteps states (a :: w) = n.readSteps (n.stepAll states a) w := rfl
      -- the last step is apart: a path over the rest is cut off only if there is a rest
      cases w with
      | nil => exact mem_stepAll_iff
      | cons b w =>
          rw [hread, ih (List.cons_ne_nil b w)]
          constructor
          · rintro ⟨r, hr, hrest⟩
            obtain ⟨p, hp, hfirst⟩ := mem_stepAll_iff.mp hr
            exact ⟨p, hp, path_cons_iff.mpr ⟨r, hfirst, hrest⟩⟩
          · rintro ⟨p, hp, hpath⟩
            obtain ⟨r, hfirst, hrest⟩ := path_cons_iff.mp hpath
            exact ⟨r, mem_stepAll_iff.mpr ⟨p, hp, hfirst⟩, hrest⟩

/-! ## Recognition -/

theorem acceptsEmpty_iff : n.acceptsEmpty ↔ ∃ q ∈ n.finals, n.Path 0 [] q := by
  have hanswer : n.acceptsEmpty = (n.run n.initial []).meets n.finals := rfl
  rw [hanswer, meets_run_iff]
  rfl

theorem recognizes_eq_ok_iff {b : Bool} : n.recognizes w = .ok b ↔
    (∀ a ∈ w, a ∈ n.alphabet) ∧ (b ↔ ∃ q ∈ n.finals, n.Path 0 w q) := by
  rw [recognizes, Alphabet.map_encode_eq_ok_iff_forall_mem]
  exact and_congr_right fun _ => iff_congr Iff.rfl recognizes_eq_ok_true_iff

theorem meets_readSteps_iff (hw : w ≠ []) :
    (n.readSteps {0} w).meets n.finals ↔ ∃ q ∈ n.finals, n.Path 0 w q := by
  rw [SortedSet.meets_iff]
  simp only [mem_readSteps_iff hw, SortedSet.mem_singleton, exists_eq_left]
  exact exists_congr fun q => and_comm

/-- The set after some letters, where nothing is read once no state is left. -/
def readUntilEmpty (n : NFA α) (states : SortedSet Nat) :
    List (Alphabet.Letter n.alphabet) → SortedSet Nat
  | [] => states
  | letter :: letters =>
      let next := n.advance states letter
      if next.isEmpty then next else n.readUntilEmpty next letters

/-- Once no state is left, none comes back. -/
theorem readUntilEmpty_eq_run (letters : List (Alphabet.Letter n.alphabet)) :
    n.readUntilEmpty states letters = n.run states letters := by
  fun_induction readUntilEmpty n states letters with
  | case1 => rfl
  | case2 states letter letters next hempty =>
      have hnext : next = ∅ := SortedSet.ext fun q =>
        iff_of_false (SortedSet.isEmpty_iff.mp hempty q) (SortedSet.not_mem_empty q)
      calc next = n.run ∅ letters := by rw [run_empty, hnext]
        _ = n.run next letters := by rw [hnext]
  | case3 states letter letters next _ ih => exact ih

/-- The answers of an automaton, as answers about its paths. -/
structure AnswersByPaths (n : NFA α) : Prop where
  recognizes_ok_iff : ∀ w b, n.recognizes w = .ok b ↔
    (∀ a ∈ w, a ∈ n.alphabet) ∧ (b ↔ ∃ q ∈ n.finals, n.Path 0 w q)
  recognizes_error_iff : ∀ w fault, n.recognizes w = .error fault ↔
    Alphabet.IsFirstForeign n.alphabet w fault
  recognizes_eq_untilEmpty : ∀ w, n.recognizes w = (Alphabet.encode n.alphabet w).map fun letters =>
    (n.readUntilEmpty n.initial letters).meets n.finals
  recognizes_eq_readSteps : ∀ w ≠ [], (∀ a ∈ w, a ∈ n.alphabet) →
    n.recognizes w = .ok ((n.readSteps {0} w).meets n.finals)
  recognizes_nil : n.recognizes [] = .ok n.acceptsEmpty
  acceptsEmpty_iff : n.acceptsEmpty ↔ ∃ q ∈ n.finals, n.Path 0 [] q
  step?_eq_none_iff : ∀ p a, n.step? p a = none ↔ ¬ (p < n.states ∧ a ∈ n.alphabet)
  mem_step?_iff : ∀ p a ends, n.step? p a = some ends → ∀ q, q ∈ ends ↔ n.Path p [a] q

/-- Every automaton answers by its paths: a word is recognized when some path spells it from the
initial state to a final one, the empty word as any other, and the first foreign symbol is reported
whatever the states before it. A step leads to the ends of the paths over its symbol, and steps from
state to state recognize the same words. -/
theorem answersByPaths (n : NFA α) : n.AnswersByPaths where
  recognizes_ok_iff _ _ := recognizes_eq_ok_iff
  recognizes_error_iff _ _ := Alphabet.map_encode_eq_error_iff
  recognizes_eq_untilEmpty w := by
    simp only [readUntilEmpty_eq_run]
    rfl
  recognizes_eq_readSteps w hw halphabet :=
    recognizes_eq_ok_iff.mpr ⟨halphabet, meets_readSteps_iff hw⟩
  recognizes_nil := rfl
  acceptsEmpty_iff := acceptsEmpty_iff
  step?_eq_none_iff _ _ := step?_eq_none_iff
  mem_step?_iff _ _ _ hstep _ := mem_of_step?_eq_some hstep

/-- The final state is behind an epsilon edge, where it reads any number of symbols. -/
def detour : NFA Char where
  toDraft := (Draft.empty {'a'}).addStates 2
    |>.insertEdge (Fin.last 1) (Fin.last 0) (Fin.last 1)
    |>.insertEpsilon ⟨0, Nat.two_pos⟩ (Fin.last 1)
    |>.insertFinal (Fin.last 1)
  states_pos := Nat.two_pos

theorem answersByPaths_detour :
    detour.acceptsEmpty ∧ ¬ (detour.readSteps {0} []).meets detour.finals ∧
      (detour.readSteps {0} ['a', 'a']).meets detour.finals ∧
      (∃ ends, detour.step? 0 'a' = some ends ∧ 1 ∈ ends) ∧
      detour.recognizes ['a', 'b', 'a'] = .error ⟨'b', 1⟩ := by
  have hanswers := detour.answersByPaths
  have hsilent : 1 ∈ detour.epsilonTargets 0 := by decide
  have hread : 1 ∈ detour.targets 1 0 := by decide
  have hedge : detour.Edge 1 (some 'a') 1 := ⟨Fin.last 0, rfl, hread⟩
  have hloop : detour.Path 1 ['a'] 1 := .cons hedge .nil
  have hfinal : 1 ∈ detour.finals := by decide
  have hletter : 'a' ∈ detour.alphabet := by decide
  refine ⟨?_, by decide, ?_, ?_, ?_⟩
  · exact hanswers.acceptsEmpty_iff.mpr ⟨1, hfinal, .epsilon hsilent .nil⟩
  · have halphabet : ∀ a ∈ ['a', 'a'], a ∈ detour.alphabet :=
      List.forall_mem_cons.mpr ⟨hletter, List.forall_mem_singleton.mpr hletter⟩
    have hsteps := hanswers.recognizes_eq_readSteps _ (List.cons_ne_nil _ _) halphabet
    have hpaths := (hanswers.recognizes_ok_iff _ _).mp hsteps
    exact hpaths.2.mpr ⟨1, hfinal, .epsilon hsilent (hloop.append hloop)⟩
  · cases hstep : detour.step? 0 'a' with
    | none => exact absurd (by decide) ((hanswers.step?_eq_none_iff 0 'a').mp hstep)
    | some ends =>
        exact ⟨ends, rfl, (hanswers.mem_step?_iff 0 'a' ends hstep 1).mpr (.epsilon hsilent hloop)⟩
  · apply (hanswers.recognizes_error_iff _ _).mpr
    exact ⟨['a'], ['a'], rfl, List.forall_mem_singleton.mpr hletter, by decide, rfl⟩

end LanguageTheory.NFA
