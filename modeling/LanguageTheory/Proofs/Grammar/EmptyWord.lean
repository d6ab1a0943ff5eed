import LanguageTheory.Grammar.EmptyWord
import LanguageTheory.Proofs.Grammar.Enumeration

/-!
# Words of grammars with a new start variable

The new start variable is no symbol of the old grammar, so it stands on no right-hand side, and forms
without it have the words they had, in as many steps (`yieldsIn_withStart_iff`). From the new start
variable itself one step leads to the empty word or to the old start variable. Within one more step
there are hence the old words and the empty one (`addEmptyWord_exact`).
-/

namespace LanguageTheory.Grammar

variable {g h : Grammar} {u w : List Char} {p : Production} {c name : Char} {n depth : Nat}

/-! ## The new start variable -/

section WithStart

variable {hterminal : name ∉ g.terminals} {hvariable : name ∉ g.vars}

theorem mem_productions_withStart_iff : p ∈ (g.withStart name hterminal hvariable).productions ↔
    p = ⟨name, []⟩ ∨ p = ⟨name, [g.start]⟩ ∨ p ∈ g.productions := by
  have hset : p ∈ (g.withStart name hterminal hvariable).productions ↔
      p ∈ insert ⟨name, []⟩ (insert ⟨name, [g.start]⟩ g.productions) := Iff.rfl
  rw [hset, SortedSet.mem_insert, SortedSet.mem_insert]

/-- A name that is no symbol of a grammar occurs in none of its productions. -/
theorem not_mem_rhs_of_fresh (hterminal : name ∉ g.terminals) (hvariable : name ∉ g.vars)
    (hp : p ∈ g.productions) : name ∉ p.rhs := by
  intro hname
  rcases g.rhs_mem p hp name hname with hvar | hterm
  · exact hvariable hvar
  · exact hterminal hterm

theorem not_mem_rhs_withStart (hp : p ∈ (g.withStart name hterminal hvariable).productions) :
    name ∉ p.rhs := by
  rcases mem_productions_withStart_iff.mp hp with rfl | rfl | hold
  · exact List.not_mem_nil
  · intro hname
    exact hvariable (List.mem_singleton.mp hname ▸ g.start_mem)
  · exact not_mem_rhs_of_fresh hterminal hvariable hold

theorem YieldsIn.withStart (h : g.YieldsIn u n w) :
    (g.withStart name hterminal hvariable).YieldsIn u n w := by
  induction h with
  | nil => exact .nil
  | terminal hc _ ih => exact .terminal hc ih
  | production hp _ _ ihrhs ihrest =>
      exact .production (mem_productions_withStart_iff.mpr (.inr (.inr hp))) ihrhs ihrest

/-- Without the new start variable only old productions are applied. -/
theorem YieldsIn.of_withStart (h : (g.withStart name hterminal hvariable).YieldsIn u n w)
    (hu : name ∉ u) : g.YieldsIn u n w := by
  induction h with
  | nil => exact .nil
  | terminal hc _ ih => exact .terminal hc (ih (List.not_mem_of_not_mem_cons hu))
  | @production c rhs rest v w m k hp _ _ ihrhs ihrest =>
      have hold : ⟨c, rhs⟩ ∈ g.productions := by
        have hne : c ≠ name := fun hsame => hu (hsame ▸ List.mem_cons_self)
        rcases mem_productions_withStart_iff.mp hp with heq | heq | hold
        · exact absurd (congrArg Production.lhs heq) hne
        · exact absurd (congrArg Production.lhs heq) hne
        · exact hold
      have hrhs : name ∉ rhs := not_mem_rhs_of_fresh hterminal hvariable hold
      exact .production hold (ihrhs hrhs) (ihrest (List.not_mem_of_not_mem_cons hu))

/-- Forms without the new start variable have the words they had, in as many steps. -/
theorem yieldsIn_withStart_iff (hu : name ∉ u) :
    (g.withStart name hterminal hvariable).YieldsIn u n w ↔ g.YieldsIn u n w :=
  ⟨fun h => h.of_withStart hu, YieldsIn.withStart⟩

theorem generates_withStart_iff (hc : c ∈ g.vars) :
    (g.withStart name hterminal hvariable).Generates c w ↔ g.Generates c w := by
  have hname : name ∉ [c] := by
    intro hmem
    exact hvariable (List.mem_singleton.mp hmem ▸ hc)
  rw [Generates, Generates, ← yields_iff, ← yields_iff, ← exists_yieldsIn_iff,
    ← exists_yieldsIn_iff]
  exact exists_congr fun n => yieldsIn_withStart_iff hname

/-- The new start variable is replaced in the first step, by nothing or by the old one. -/
theorem yieldsIn_start_withStart_iff :
    (g.withStart name hterminal hvariable).YieldsIn [name] n w ↔
      n = 1 ∧ w = [] ∨ ∃ k, n = k + 1 ∧ g.YieldsIn [g.start] k w := by
  have hstart : name ∉ [g.start] := by
    intro hmem
    exact hvariable (List.mem_singleton.mp hmem ▸ g.start_mem)
  constructor
  · intro h
    cases h with
    | terminal hc => exact absurd hc hterminal
    | @production _ rhs _ v rest m k hp hrhs hrest =>
        obtain ⟨rfl, rfl⟩ : k = 0 ∧ rest = [] := by
          cases hrest
          exact ⟨rfl, rfl⟩
        rw [List.append_nil, Nat.add_zero]
        rcases mem_productions_withStart_iff.mp hp with heq | heq | hold
        · obtain ⟨_, rfl⟩ := Production.mk.inj heq
          cases hrhs
          exact .inl ⟨rfl, rfl⟩
        · obtain ⟨_, rfl⟩ := Production.mk.inj heq
          exact .inr ⟨m, rfl, (yieldsIn_withStart_iff hstart).mp hrhs⟩
        · exact absurd (g.lhs_mem _ hold) hvariable
  · rintro (⟨rfl, rfl⟩ | ⟨k, rfl, hyields⟩)
    · exact .production (mem_productions_withStart_iff.mpr (.inl rfl)) .nil .nil
    · have hp : ⟨name, [g.start]⟩ ∈ (g.withStart name hterminal hvariable).productions :=
        mem_productions_withStart_iff.mpr (.inr (.inl rfl))
      have hword := YieldsIn.production hp ((yieldsIn_withStart_iff hstart).mpr hyields) .nil
      rwa [List.append_nil] at hword

/-- One more step leaves room for the old words, and for the empty one. -/
theorem mem_produce_withStart_iff :
    w ∈ (g.withStart name hterminal hvariable).produce (depth + 1) ↔
      w ∈ g.produce depth ∨ w = [] := by
  have hstart : (g.withStart name hterminal hvariable).start = name := rfl
  have hflag : ¬ (g.withStart name hterminal hvariable).acceptsEmpty := Bool.false_ne_true
  rw [mem_produce_iff, mem_produce_iff, hstart]
  simp only [yieldsIn_start_withStart_iff]
  constructor
  · rintro (⟨_, hle, ⟨_, rfl⟩ | ⟨k, rfl, hyields⟩⟩ | ⟨_, haccepts⟩)
    · exact .inr rfl
    · exact .inl (.inl ⟨k, Nat.le_of_succ_le_succ hle, hyields⟩)
    · exact absurd haccepts hflag
  · rintro ((⟨k, hk, hyields⟩ | ⟨rfl, _⟩) | rfl)
    · exact .inl ⟨k + 1, Nat.succ_le_succ hk, .inr ⟨k, rfl, hyields⟩⟩
    · exact .inl ⟨1, Nat.le_add_left 1 depth, .inl ⟨rfl, rfl⟩⟩
    · exact .inl ⟨1, Nat.le_add_left 1 depth, .inl ⟨rfl, rfl⟩⟩

end WithStart

/-! ## Adding the empty word -/

theorem unusedNames_eq_nil_iff :
    g.unusedNames = [] ↔ ∀ c, Uppercase.isUppercase c → c ∈ g.terminals ∨ c ∈ g.vars := by
  rw [List.eq_nil_iff_forall_not_mem]
  apply forall_congr'
  intro c
  rw [mem_unusedNames]
  tauto

/-- It fails when no upper-case character is left for a name. -/
theorem addEmptyWord_eq_error_iff {fault : GrammarFault} : g.addEmptyWord = .error fault ↔
    fault = .variablesExhausted ∧
      ∀ c, Uppercase.isUppercase c → c ∈ g.terminals ∨ c ∈ g.vars := by
  rw [← unusedNames_eq_nil_iff]
  unfold addEmptyWord
  split
  next hnames => simp [hnames, eq_comm]
  next hnames => simp [hnames]

theorem exists_withStart_of_addEmptyWord (happly : g.addEmptyWord = .ok h) :
    ∃ name hterminal hvariable, g.withStart name hterminal hvariable = h := by
  unfold addEmptyWord at happly
  split at happly
  next => cases happly
  next name _ hnames =>
    have hunused := mem_unusedNames.mp (hnames ▸ List.mem_cons_self)
    exact ⟨name, hunused.2.1, hunused.2.2, Except.ok.inj happly⟩

/-- The empty word can be added unless all upper-case characters are in use. Then one more step gives
the words that there were and the empty one, and every old variable has the words it had. The new
start variable occurs on no right-hand side, and the empty word is derived, not only accepted. -/
theorem addEmptyWord_exact (g : Grammar) :
    (∀ fault, g.addEmptyWord = .error fault ↔ fault = .variablesExhausted ∧
      ∀ c, Uppercase.isUppercase c → c ∈ g.terminals ∨ c ∈ g.vars) ∧
    ∀ h, g.addEmptyWord = .ok h →
      (∀ depth w, w ∈ h.produce (depth + 1) ↔ w ∈ g.produce depth ∨ w = []) ∧
      (∀ c ∈ g.vars, ∀ w, h.Generates c w ↔ g.Generates c w) ∧
      (h.start ∉ g.terminals ∧ h.start ∉ g.vars) ∧
      (∀ p ∈ h.productions, h.start ∉ p.rhs) ∧ h.acceptsEmpty = false := by
  refine ⟨fun _ => addEmptyWord_eq_error_iff, ?_⟩
  intro h happly
  obtain ⟨name, hterminal, hvariable, rfl⟩ := exists_withStart_of_addEmptyWord happly
  exact ⟨fun _ _ => mem_produce_withStart_iff, fun c hc _ => generates_withStart_iff hc,
    ⟨hterminal, hvariable⟩, fun p hp => not_mem_rhs_withStart hp, rfl⟩

theorem addEmptyWord_exact_pairs : ∃ h, pairs.addEmptyWord = .ok h ∧
    [] ∈ h.produce 1 ∧ ['a', 'b'] ∈ h.produce 4 ∧ ['a', 'b'] ∉ h.produce 3 ∧
      ¬ h.acceptsEmpty := by
  obtain ⟨herror, hok⟩ := addEmptyWord_exact pairs
  have hfree : ¬ ∀ c, Uppercase.isUppercase c → c ∈ pairs.terminals ∨ c ∈ pairs.vars := by
    intro hall
    exact absurd (hall 'C' (by decide)) (by decide)
  cases happly : pairs.addEmptyWord with
  | error fault => exact absurd ((herror fault).mp happly).2 hfree
  | ok h =>
      obtain ⟨hwords, _, _, _, hflag⟩ := hok h happly
      refine ⟨h, rfl, (hwords 0 []).mpr (.inr rfl), ?_, ?_, ?_⟩
      · exact (hwords 3 ['a', 'b']).mpr (.inl (by decide +kernel))
      · rw [hwords 2]
        decide +kernel
      · simp [hflag]

end LanguageTheory.Grammar
