import LanguageTheory.Grammar.Conversion
import LanguageTheory.Proofs.Grammar.ChomskyForm
import LanguageTheory.Proofs.Numbering.Ranks

/-!
# The pass and the form

A part of the pass asks for helpers, one after the other, and adds productions. What has been made
is determined by what has been asked for and added so far (`stateAfter`): the helpers have got names
in the order in which they were first asked for. So a part comes through exactly when there are
names enough for all that has been asked for at its end (`Serves`), and the whole pass makes the
normal form of the grammar or fails as the conversion does (`convert_eq`).
-/

namespace LanguageTheory.Grammar

open LanguageTheory.Numbering (unseen)

variable {g : Grammar} {name : Helper → Char} {before requests others : List Helper}
  {helper : Helper} {old new added : List Production} {p : Production} {β γ : Type} {b : β} {c : γ}

/-! ## What has been made -/

/-- The variable that stands for a terminal. -/
def substitution (name : Helper → Char) : Helper → Option (Char × Char)
  | .terminal c => some (c, name (.terminal c))
  | .link .. => none

/-- The names that are left after some requests. -/
def namesAfter (g : Grammar) (requests : List Helper) : FreshNames :=
  ⟨g.unusedNames.drop (unseen [] requests).length⟩

/-- The variables after some requests. -/
def varsAfter (g : Grammar) (name : Helper → Char) (requests : List Helper) : SortedSet Char :=
  g.vars ∪ .ofList (requests.map name)

/-- What has been made after some requests for helpers and some other productions. -/
def stateAfter (g : Grammar) (name : Helper → Char) (requests : List Helper)
    (added : List Production) : Conversion where
  names := g.namesAfter requests
  vars := g.varsAfter name requests
  substitutes := (unseen [] requests).filterMap (substitution name)
  productions := .ofList (added ++ requests.filterMap (terminalProduction name))

/-- There are names for all that is asked for. -/
def Enough (g : Grammar) (requests : List Helper) : Prop :=
  (unseen [] requests).length ≤ g.unusedNames.length

instance : Decidable (g.Enough requests) := inferInstanceAs (Decidable (_ ≤ _))

theorem Enough.of_append (h : g.Enough (before ++ requests)) : g.Enough before := by
  rw [Enough, Numbering.unseen_append, List.length_append] at h
  exact Nat.le_of_add_right_le h

/-- After the requests `before` and the productions `old`, the call makes the requests `requests`,
comes to the productions `new`, and returns `b`; unless there are not names enough. -/
def Serves (g : Grammar) (name : Helper → Char) (call : Convert β) (before requests : List Helper)
    (old new : List Production) (b : β) : Prop :=
  g.Enough before → call.run (g.stateAfter name before old) =
    if g.Enough (before ++ requests) then .ok (b, g.stateAfter name (before ++ requests) new)
    else .error .variablesExhausted

namespace Serves

theorem pure (b : β) : Serves g name (Pure.pure b) before [] old old b := by
  intro henough
  rw [List.append_nil, if_pos henough]
  rfl

theorem bind {call : Convert β} {next : β → Convert γ}
    (hcall : Serves g name call before requests old new b)
    (hnext : Serves g name (next b) (before ++ requests) others new added c) :
    Serves g name (call >>= next) before (requests ++ others) old added c := by
  intro henough
  rw [StateT.run_bind, hcall henough, ← List.append_assoc]
  by_cases hfirst : g.Enough (before ++ requests)
  · rw [if_pos hfirst, ← hnext hfirst]
    rfl
  · -- names that run out in the first part are not enough for both
    rw [if_neg hfirst, if_neg fun hall => hfirst hall.of_append]
    rfl

/-- Productions are only added. -/
theorem emit (p : Production) : Serves g name (emit p) before [] old (old ++ [p]) () := by
  intro henough
  rw [List.append_nil, if_pos henough]
  have hproductions : insert p (g.stateAfter name before old).productions =
      (g.stateAfter name before (old ++ [p])).productions := by
    apply SortedSet.ext
    intro q
    simp only [stateAfter, SortedSet.mem_insert, SortedSet.mem_ofList, List.mem_append,
      List.mem_singleton]
    tauto
  simp only [Grammar.emit, StateT.run_modify, hproductions]
  rfl

end Serves

/-! ## Names -/

/-- The names follow the order of the requests. -/
def Follows (g : Grammar) (name : Helper → Char) (requests : List Helper) : Prop :=
  ∀ (i : Nat) helper c, (unseen [] requests)[i]? = some helper → g.unusedNames[i]? = some c →
    name helper = c

theorem Follows.of_append (h : g.Follows name (before ++ requests)) : g.Follows name before := by
  intro i helper c hhelper hc
  refine h i helper c ?_ hc
  obtain ⟨hi, _⟩ := List.getElem?_eq_some_iff.mp hhelper
  rw [Numbering.unseen_append, List.getElem?_append_left hi, hhelper]

/-- The next name is that of the next helper. -/
theorem allocate_namesAfter (hname : g.Follows name (before ++ [helper])) (hnew : helper ∉ before) :
    (g.namesAfter before).allocate =
      if g.Enough (before ++ [helper]) then .ok (name helper, g.namesAfter (before ++ [helper]))
      else .error .variablesExhausted := by
  have hlist := Numbering.unseen_append_of_not_mem hnew
  have hlength : (unseen [] (before ++ [helper])).length = (unseen [] before).length + 1 := by
    rw [hlist, List.length_append, List.length_singleton]
  have hone : g.Enough (before ++ [helper]) ↔ (unseen [] before).length < g.unusedNames.length := by
    rw [Enough, hlength]
    exact Nat.succ_le_iff
  by_cases hleft : (unseen [] before).length < g.unusedNames.length
  · have hnext : name helper = g.unusedNames[(unseen [] before).length] := by
      refine hname _ helper _ ?_ (List.getElem?_eq_getElem hleft)
      rw [hlist, List.getElem?_concat_length]
    rw [if_pos (hone.mpr hleft), namesAfter, namesAfter, List.drop_eq_getElem_cons hleft, hnext,
      hlength]
    rfl
  · rw [if_neg fun henough => hleft (hone.mp henough), namesAfter,
      List.drop_eq_nil_of_le (Nat.not_lt.mp hleft)]
    rfl

theorem insert_varsAfter :
    insert (name helper) (g.varsAfter name before) = g.varsAfter name (before ++ [helper]) := by
  apply SortedSet.ext
  intro c
  simp only [varsAfter, SortedSet.mem_insert, SortedSet.mem_union, SortedSet.mem_ofList,
    List.map_append, List.mem_append, List.map_singleton, List.mem_singleton]
  tauto

theorem newVariable_run (hname : g.Follows name (before ++ [helper])) (hnew : helper ∉ before) :
    newVariable.run (g.stateAfter name before old) =
      if g.Enough (before ++ [helper]) then
        .ok (name helper,
          { g.stateAfter name before old with
            names := g.namesAfter (before ++ [helper])
            vars := g.varsAfter name (before ++ [helper]) })
      else .error .variablesExhausted := by
  have hnames : (g.stateAfter name before old).names.allocate = _ := allocate_namesAfter hname hnew
  simp only [newVariable, StateT.run_bind, StateT.run_get, pure_bind, StateT.run_monadLift, hnames]
  by_cases henough : g.Enough (before ++ [helper])
  · rw [if_pos henough, if_pos henough, ← insert_varsAfter]
    rfl
  · rw [if_neg henough, if_neg henough]
    rfl

/-- A link is asked for once. -/
theorem Serves.newVariable {position : Nat} (hname : g.Follows name (before ++ [.link p position]))
    (hnew : .link p position ∉ before) :
    Serves g name newVariable before [.link p position] old old (name (.link p position)) := by
  intro _
  rw [newVariable_run hname hnew]
  by_cases henough : g.Enough (before ++ [.link p position])
  · rw [if_pos henough, if_pos henough]
    simp only [stateAfter, Numbering.unseen_append_of_not_mem hnew, List.filterMap_append,
      List.filterMap_cons, List.filterMap_nil, substitution, terminalProduction, List.append_nil]
  · rw [if_neg henough, if_neg henough]

theorem lookup_filterMap_substitution {d : Char} :
    (requests.filterMap (substitution name)).lookup d =
      if .terminal d ∈ requests then some (name (.terminal d)) else none := by
  induction requests with
  | nil => rfl
  | cons helper requests ih =>
      cases helper with
      | link p position =>
          rw [List.filterMap_cons_none rfl, ih]
          simp only [List.mem_cons, reduceCtorEq, false_or]
      | terminal c =>
          have hhead : substitution name (.terminal c) = some (c, name (.terminal c)) := rfl
          rw [List.filterMap_cons_some hhead, List.lookup_cons, ih]
          by_cases hsame : d = c
          · subst hsame
            simp
          · simp [beq_false_of_ne hsame, hsame]

/-- What is asked for again changes nothing. -/
theorem stateAfter_append_of_mem (hmet : helper ∈ before) :
    g.stateAfter name (before ++ [helper]) old = g.stateAfter name before old := by
  have hvars : g.varsAfter name (before ++ [helper]) = g.varsAfter name before := by
    apply SortedSet.ext
    intro c
    simp only [varsAfter, SortedSet.mem_union, SortedSet.mem_ofList, List.mem_map, List.mem_append,
      List.mem_singleton, or_and_right, exists_or, exists_eq_left]
    refine or_congr_right (or_iff_left_of_imp ?_)
    intro hname
    exact ⟨helper, hmet, hname⟩
  have hproductions : SortedSet.ofList
      (old ++ (before ++ [helper]).filterMap (terminalProduction name)) =
        .ofList (old ++ before.filterMap (terminalProduction name)) := by
    apply SortedSet.ext
    intro q
    simp only [SortedSet.mem_ofList, List.mem_append, List.mem_filterMap, List.mem_singleton,
      or_and_right, exists_or, exists_eq_left]
    refine or_congr_right (or_iff_left_of_imp ?_)
    intro hq
    exact ⟨helper, hmet, hq⟩
  rw [stateAfter, stateAfter, namesAfter, namesAfter, hvars, hproductions,
    Numbering.unseen_append_of_mem hmet]

theorem insert_terminalProduction {d : Char} :
    insert ⟨name (.terminal d), [d]⟩ (g.stateAfter name before old).productions =
      (g.stateAfter name (before ++ [.terminal d]) old).productions := by
  apply SortedSet.ext
  intro q
  simp only [stateAfter, SortedSet.mem_insert, SortedSet.mem_ofList, List.filterMap_append,
    List.filterMap_cons, List.filterMap_nil, terminalProduction, List.mem_append,
    List.mem_singleton]
  tauto

/-- A terminal is asked for whenever it is met, and gets a name the first time. -/
theorem Serves.substitute_terminal {d : Char} (hvar : d ∉ g.vars)
    (hname : g.Follows name (before ++ [.terminal d])) :
    Serves g name (g.substitute d) before [.terminal d] old old (name (.terminal d)) := by
  intro henough
  have hlookup : (g.stateAfter name before old).substitutes.lookup d = _ :=
    lookup_filterMap_substitution
  simp only [Numbering.mem_unseen, List.not_mem_nil, not_false_eq_true, and_true] at hlookup
  simp only [Grammar.substitute, if_neg hvar, StateT.run_bind, StateT.run_get, pure_bind, hlookup]
  -- a terminal that has been met before is found, and no name is taken
  by_cases hmet : .terminal d ∈ before
  · have hsame : g.Enough (before ++ [.terminal d]) := by
      rwa [Enough, Numbering.unseen_append_of_mem hmet]
    rw [if_pos hmet, if_pos hsame, stateAfter_append_of_mem hmet]
    rfl
  · rw [if_neg hmet]
    simp only [StateT.run_bind, newVariable_run hname hmet]
    by_cases hmore : g.Enough (before ++ [.terminal d])
    · rw [if_pos hmore, if_pos hmore]
      have hproductions :
          insert ⟨name (.terminal d), [d]⟩ (g.stateAfter name before old).productions =
            (g.stateAfter name (before ++ [.terminal d]) old).productions :=
        insert_terminalProduction
      simp only [stateAfter] at hproductions ⊢
      simp only [Grammar.emit, StateT.run_modify, StateT.run_pure, pure_bind]
      rw [← hproductions, Numbering.unseen_append_of_not_mem hmet, List.filterMap_append]
      rfl
    · rw [if_neg hmore, if_neg hmore]
      rfl

/-! ## Symbols and chains -/

/-- The terminals of a long production are asked for from left to right. -/
def terminalRequests (g : Grammar) (symbols : List Char) : List Helper :=
  (symbols.filter (· ∉ g.vars)).map .terminal

/-- Then its links are asked for in their order. -/
def linkRequests (p : Production) (position count : Nat) : List Helper :=
  (List.range' position count).map (.link p)

theorem terminalRequests_cons {d : Char} {symbols : List Char} :
    g.terminalRequests (d :: symbols) = g.terminalRequests [d] ++ g.terminalRequests symbols := by
  rw [terminalRequests, ← List.singleton_append, List.filter_append, List.map_append]
  rfl

theorem linkRequests_succ {position count : Nat} : linkRequests p position (count + 1) =
    [.link p position] ++ linkRequests p (position + 1) count := by
  rw [linkRequests, List.range'_succ, List.map_cons]
  rfl

theorem Serves.substitute {d : Char} (hname : g.Follows name (before ++ g.terminalRequests [d])) :
    Serves g name (g.substitute d) before (g.terminalRequests [d]) old old (g.standIn name d) := by
  by_cases hvar : d ∈ g.vars
  · have hnone : g.terminalRequests [d] = [] := by simp [terminalRequests, hvar]
    rw [hnone, standIn, if_pos hvar, Grammar.substitute, if_pos hvar]
    exact .pure d
  · have hone : g.terminalRequests [d] = [.terminal d] := by simp [terminalRequests, hvar]
    rw [hone] at hname ⊢
    rw [standIn, if_neg hvar]
    exact .substitute_terminal hvar hname

theorem Serves.mapM_substitute {symbols : List Char}
    (hname : g.Follows name (before ++ g.terminalRequests symbols)) :
    Serves g name (symbols.mapM g.substitute) before (g.terminalRequests symbols) old old
      (symbols.map (g.standIn name)) := by
  induction symbols generalizing before with
  | nil => exact .pure []
  | cons d symbols ih =>
      rw [terminalRequests_cons, ← List.append_assoc] at hname
      rw [terminalRequests_cons, ← List.append_nil (g.terminalRequests symbols), List.mapM_cons]
      refine .bind (.substitute hname.of_append) ?_
      refine .bind (ih hname) ?_
      exact .pure _

theorem emitChain_cons {head first second third : Char} {rest : List Char} :
    emitChain head (first :: second :: third :: rest) = (do
      let next ← newVariable
      emit ⟨head, [first, next]⟩
      emitChain next (second :: third :: rest)) := by
  simp [emitChain, List.foldlM_cons]

/-- A chain asks for its links one after the other. -/
theorem Serves.emitChain {head : Char} {position : Nat} {symbols : List Char}
    (hname : g.Follows name (before ++ linkRequests p position (symbols.length - 2)))
    (hnew : ∀ i, position ≤ i → .link p i ∉ before) :
    Serves g name (emitChain head symbols) before (linkRequests p position (symbols.length - 2)) old
      (old ++ chain (fun i => name (.link p i)) head position symbols) () := by
  fun_induction chain (fun i => name (.link p i)) head position symbols generalizing before old with
  | case1 head position first second third rest ih =>
      have hlength : (first :: second :: third :: rest).length - 2 =
          (second :: third :: rest).length - 2 + 1 := rfl
      rw [hlength, linkRequests_succ] at hname ⊢
      rw [← List.append_assoc] at hname
      rw [emitChain_cons, ← List.singleton_append (l := chain _ _ _ _), ← List.append_assoc]
      refine .bind (.newVariable hname.of_append (hnew position (Nat.le_refl position))) ?_
      rw [← List.nil_append (linkRequests p (position + 1) _)]
      refine .bind (.emit _) ?_
      rw [List.append_nil]
      -- the links that are left have later positions
      refine ih hname ?_
      intro i hi hmem
      rcases List.mem_append.mp hmem with hold | hlast
      · exact hnew i (Nat.le_of_succ_le hi) hold
      · have hsame := (Helper.link.inj (List.mem_singleton.mp hlast)).2
        omega
  | case2 head position symbols hend =>
      have hnone : symbols.length - 2 = 0 := Nat.sub_eq_zero_of_le (length_le_two hend)
      have hchain : Grammar.emitChain head symbols = Grammar.emit ⟨head, symbols⟩ := by
        simp [Grammar.emitChain, hnone]
      rw [hnone, hchain]
      exact .emit _

/-! ## Productions -/

theorem helpersOf_of_long (hlong : ¬ p.rhs.length < 2) : g.helpersOf p =
    g.terminalRequests p.rhs ++ linkRequests p 0 (p.rhs.length - 2) := by
  rw [helpersOf, if_neg hlong, List.range_eq_range']
  rfl

/-- A production asks for its helpers, and its chain is added. -/
theorem Serves.convertProduction (hname : g.Follows name (before ++ g.helpersOf p))
    (hnew : ∀ i, .link p i ∉ before) :
    Serves g name (g.convertProduction p) before (g.helpersOf p) old
      (old ++ g.binarize name p) () := by
  unfold Grammar.convertProduction
  by_cases hshort : p.rhs.length < 2
  · rw [helpersOf, if_pos hshort, if_pos hshort, binarize, if_pos hshort]
    exact .emit p
  · rw [helpersOf_of_long hshort, ← List.append_assoc] at hname
    rw [helpersOf_of_long hshort, if_neg hshort, binarize, if_neg hshort]
    refine .bind (.mapM_substitute hname.of_append) ?_
    have hlength : p.rhs.length = (p.rhs.map (g.standIn name)).length := List.length_map _ |>.symm
    rw [hlength] at hname ⊢
    refine .emitChain hname ?_
    intro i _ hmem
    rcases List.mem_append.mp hmem with hold | hterminal
    · exact hnew i hold
    · obtain ⟨_, _, hsame⟩ := List.mem_map.mp hterminal
      cases hsame

/-- The pass asks for the helpers of one production after the other. -/
theorem Serves.forM_convertProduction {productions : List Production} (hnodup : productions.Nodup)
    (hname : g.Follows name (before ++ productions.flatMap g.helpersOf))
    (hnew : ∀ p ∈ productions, ∀ i, .link p i ∉ before) :
    Serves g name (productions.forM g.convertProduction) before
      (productions.flatMap g.helpersOf) old (old ++ productions.flatMap (g.binarize name)) () := by
  induction productions generalizing before old with
  | nil =>
      rw [List.flatMap_nil, List.flatMap_nil, List.append_nil]
      exact .pure ()
  | cons p productions ih =>
      obtain ⟨hp, hnodup⟩ := List.nodup_cons.mp hnodup
      rw [List.flatMap_cons, ← List.append_assoc] at hname
      rw [List.flatMap_cons, List.flatMap_cons, ← List.append_assoc]
      refine .bind (.convertProduction hname.of_append (hnew p List.mem_cons_self)) ?_
      -- a link belongs to one production, so those of the productions to come are new
      refine ih hnodup hname ?_
      intro q hq i hmem
      rcases List.mem_append.mp hmem with hold | hlast
      · exact hnew q (List.mem_cons_of_mem p hq) i hold
      · obtain ⟨rfl, _⟩ := link_mem_helpersOf_iff.mp hlast
        exact hp hq

/-! ## The pass -/

/-- The conversion names the helpers in the order of the requests. -/
theorem follows_nameOf (g : Grammar) :
    g.Follows (fun helper => (nameOf g.helpers g.unusedNames.toArray helper).getD g.start)
      (g.productions.toList.flatMap g.helpersOf) := by
  intro i helper c hhelper hc
  have hlist : g.helpers.toList = unseen [] (g.productions.toList.flatMap g.helpersOf) :=
    Numbering.toList_ofList
  rw [← hlist] at hhelper
  have hsize : i < g.helpers.size := by
    obtain ⟨hi, _⟩ := List.getElem?_eq_some_iff.mp hhelper
    exact hi
  have hget : g.helpers.get ⟨i, hsize⟩ = helper := by
    rw [← Option.some.injEq, ← Numbering.getElem?_toList, hhelper]
  have hnamed : nameOf g.helpers g.unusedNames.toArray helper = some c := by
    rw [nameOf, Numbering.rank?_eq_some_iff.mpr hget, Option.bind_some, List.getElem?_toArray, hc]
  exact congrArg (Option.getD · g.start) hnamed

theorem enough_iff : g.Enough (g.productions.toList.flatMap g.helpersOf) ↔
    g.helpers.size ≤ g.unusedNames.toArray.size := by
  have hlist : g.helpers.toList = unseen [] (g.productions.toList.flatMap g.helpersOf) :=
    Numbering.toList_ofList
  rw [Enough, ← hlist, ← Numbering.size_eq_length, List.size_toArray]

theorem varsAfter_eq : g.varsAfter name (g.productions.toList.flatMap g.helpersOf) =
    g.binaryVariables name := by
  apply SortedSet.ext
  intro c
  simp only [varsAfter, SortedSet.mem_union, SortedSet.mem_ofList, List.mem_map,
    mem_binaryVariables, mem_helpers, List.mem_flatMap, SortedSet.mem_toList]

theorem productions_stateAfter :
    (g.stateAfter name (g.productions.toList.flatMap g.helpersOf)
      (g.productions.toList.flatMap (g.binarize name))).productions = g.binaryProductions name := by
  apply SortedSet.ext
  intro q
  simp only [stateAfter, binaryProductions, SortedSet.mem_ofList, List.mem_append,
    List.mem_filterMap, Numbering.mem_toList, mem_helpers, List.mem_flatMap, SortedSet.mem_toList]

/-- Before the first production nothing has been made. -/
theorem stateAfter_nil : g.stateAfter name [] [] =
    { names := g.freshNames, vars := g.vars, substitutes := [], productions := ∅ } := by
  have hvars : g.varsAfter name [] = g.vars := by
    apply SortedSet.ext
    simp [varsAfter]
  rw [stateAfter, hvars]
  rfl

theorem serves_pass (hname : g.Follows name (g.productions.toList.flatMap g.helpersOf)) :
    Serves g name (g.productions.toList.forM g.convertProduction) []
      (g.productions.toList.flatMap g.helpersOf) []
      (g.productions.toList.flatMap (g.binarize name)) () :=
  .forM_convertProduction g.productions.nodup hname fun _ _ _ => List.not_mem_nil

/-- The pass makes the normal form, or fails as the conversion does. -/
theorem convert_eq (g : Grammar) :
    g.convert = g.toChomskyForm.map fun normal => (normal.vars, normal.productions) := by
  have hpass := serves_pass (follows_nameOf g.reduced) (Nat.zero_le _)
  rw [stateAfter_nil, List.nil_append] at hpass
  simp only [convert, hpass, enough_iff, toChomskyForm]
  by_cases henough : g.reduced.helpers.size ≤ g.reduced.unusedNames.toArray.size
  · rw [if_pos henough, dif_pos henough]
    exact congrArg Except.ok (Prod.ext varsAfter_eq productions_stateAfter)
  · rw [if_neg henough, dif_neg henough]
    rfl

end LanguageTheory.Grammar
