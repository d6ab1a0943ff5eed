import LanguageTheory.Proofs.Regex.Notation

/-!
# What a character does

A character that is no operator spells an expression by itself or is unknown. An operator makes its
one move, at the places where the notation has it (`moveOf_eq_ok_iff`).
-/

namespace LanguageTheory.Regex

variable {A : Alphabet Char} {markers : Markers} {r : Regex Char} {c : Char} {place : Place}
  {inside : Bool} {move : Move} {kind : SyntaxFault.Kind}

/-! ## Single characters -/

theorem operand?_eq_none (hmarkers : markers.Plain) (hc : c ∈ operators) :
    operand? A markers c = none := by
  have hword : c ≠ markers.emptyWord := fun h => hmarkers.emptyWord (h ▸ hc)
  have hlanguage : c ≠ markers.emptyLanguage := fun h => hmarkers.emptyLanguage (h ▸ hc)
  simp [operand?, hc, hword, hlanguage]

theorem not_mem_operators_of_operand? (hmarkers : markers.Plain)
    (h : operand? A markers c = some r) : c ∉ operators := by
  intro hc
  rw [operand?_eq_none hmarkers hc] at h
  cases h

theorem not_mem_operators_iff : c ∉ operators ↔ c ≠ '(' ∧ c ≠ ')' ∧ c ≠ '*' ∧ c ≠ '+' := by
  simp [operators]

/-- A character by itself spells what it stands for. -/
theorem spells_singleton_iff (hmarkers : markers.Plain) :
    Spells A markers .term [c] r ↔ operand? A markers c = some r := by
  constructor
  · intro h
    generalize htext : [c] = text at h
    cases h with
    | symbol hoperator hmem =>
        obtain rfl := List.singleton_inj.mp htext
        simp [operand?, hoperator, hmem]
    | emptyWord hoperator hmem =>
        obtain rfl := List.singleton_inj.mp htext
        simp [operand?, hmem]
    | emptyLanguage hoperator hmem hne =>
        obtain rfl := List.singleton_inj.mp htext
        simp [operand?, hmem, hne]
    | emptyGroup => cases htext
    | group => simp at htext
  · intro h
    have hoperator := not_mem_operators_of_operand? hmarkers h
    unfold operand? at h
    split at h
    next hsymbol =>
      cases h
      exact .symbol hsymbol.1 hsymbol.2
    next hsymbol =>
      have hmem : c ∉ A := fun hc => hsymbol ⟨hoperator, hc⟩
      split at h
      next hword =>
        cases h
        subst hword
        exact .emptyWord hoperator hmem
      next hword =>
        split at h
        next hlanguage =>
          cases h
          subst hlanguage
          exact .emptyLanguage hoperator hmem hword
        next => cases h

/-! ## Moves -/

section Moves

theorem moveOf_openParenthesis : moveOf A markers place inside '(' = .ok .openGroup := rfl

/-- What a character does that has no meaning of its own where it stands. -/
theorem moveOf_of_not_reserved (hopen : c ≠ '(') (hclose : ¬ (c = ')' ∧ place = .opening ∧ inside))
    (hstar : ¬ (c = '*' ∧ place = .after)) : moveOf A markers place inside c =
      match operand? A markers c with
      | some r => .ok (.operand r)
      | none =>
          if c ∉ operators then .error (.unknownSymbol c)
          else if place ≠ .after then .error .missingOperand
          else if c = '+' then .ok .alternative
          else if inside then .ok .closeGroup
          else .error .unbalancedParenthesis :=
  (if_neg hopen).trans ((if_neg hclose).trans (if_neg hstar))

variable (hmarkers : markers.Plain)
include hmarkers

theorem moveOf_closeParenthesis : moveOf A markers place inside ')' =
    if inside ∧ place ≠ .due then .ok .closeGroup
    else if place = .after then .error .unbalancedParenthesis
    else .error .missingOperand := by
  have hnone : operand? A markers ')' = none := operand?_eq_none hmarkers (by decide)
  cases place <;> cases inside <;> simp [moveOf, hnone, operators]

theorem moveOf_asterisk : moveOf A markers place inside '*' =
    if place = .after then .ok .star else .error .missingOperand := by
  have hnone : operand? A markers '*' = none := operand?_eq_none hmarkers (by decide)
  cases place <;> simp [moveOf, hnone, operators]

theorem moveOf_plus : moveOf A markers place inside '+' =
    if place = .after then .ok .alternative else .error .missingOperand := by
  have hnone : operand? A markers '+' = none := operand?_eq_none hmarkers (by decide)
  cases place <;> simp [moveOf, hnone, operators]

omit hmarkers in
theorem moveOf_of_not_mem_operators (hc : c ∉ operators) : moveOf A markers place inside c =
    match operand? A markers c with
    | some r => .ok (.operand r)
    | none => .error (.unknownSymbol c) := by
  obtain ⟨hopen, hclose, hstar, hplus⟩ := not_mem_operators_iff.mp hc
  cases hoperand : operand? A markers c <;> simp [moveOf, hopen, hclose, hstar, hoperand, hc]

end Moves

/-- When a character makes a move. -/
def Move.Allowed (A : Alphabet Char) (markers : Markers) (place : Place) (inside : Bool)
    (c : Char) : Move → Prop
  | openGroup => c = '('
  | closeGroup => c = ')' ∧ inside ∧ place ≠ .due
  | alternative => c = '+' ∧ place = .after
  | star => c = '*' ∧ place = .after
  | operand r => Spells A markers .term [c] r

theorem moveOf_eq_ok_iff (hmarkers : markers.Plain) :
    moveOf A markers place inside c = .ok move ↔ move.Allowed A markers place inside c := by
  by_cases hc : c ∈ operators
  · have hnone : ∀ r, ¬ Spells A markers .term [c] r := by
      intro r h
      rw [spells_singleton_iff hmarkers, operand?_eq_none hmarkers hc] at h
      cases h
    simp only [operators, List.mem_cons, List.not_mem_nil, or_false] at hc
    rcases hc with rfl | rfl | rfl | rfl
    · rw [moveOf_openParenthesis]
      cases move <;> simp [Move.Allowed, hnone]
    · rw [moveOf_closeParenthesis hmarkers]
      cases move <;> cases place <;> cases inside <;> simp [Move.Allowed, hnone]
    · rw [moveOf_asterisk hmarkers]
      cases move <;> cases place <;> simp [Move.Allowed, hnone]
    · rw [moveOf_plus hmarkers]
      cases move <;> cases place <;> simp [Move.Allowed, hnone]
  · have hplain := not_mem_operators_iff.mp hc
    rw [moveOf_of_not_mem_operators hc]
    cases hoperand : operand? A markers c <;> cases move <;>
      simp [Move.Allowed, spells_singleton_iff hmarkers, hoperand, hplain]

/-- What is wrong with a character that makes no move: it is unknown, it closes a group that was
never opened, or it is an operator that lacks an operand. -/
theorem moveOf_eq_error (hmarkers : markers.Plain)
    (h : moveOf A markers place inside c = .error kind) :
    c ∉ operators ∧ kind = .unknownSymbol c ∨
    (c = ')' ∧ inside = false ∧ place = .after) ∧ kind = .unbalancedParenthesis ∨
    (c ∈ operators ∧ ¬ (c = ')' ∧ inside = false ∧ place = .after)) ∧ kind = .missingOperand := by
  by_cases hc : c ∈ operators
  · simp only [operators, List.mem_cons, List.not_mem_nil, or_false] at hc
    rcases hc with rfl | rfl | rfl | rfl
    · cases h
    · rw [moveOf_closeParenthesis hmarkers] at h
      cases place <;> cases inside <;> cases h <;> decide
    · rw [moveOf_asterisk hmarkers] at h
      cases place <;> cases h <;> exact .inr (.inr (by simp [operators]))
    · rw [moveOf_plus hmarkers] at h
      cases place <;> cases h <;> exact .inr (.inr (by simp [operators]))
  · refine .inl ⟨hc, ?_⟩
    rw [moveOf_of_not_mem_operators hc] at h
    cases hoperand : operand? A markers c with
    | none =>
        rw [hoperand] at h
        exact (Except.error.inj h).symm
    | some r =>
        rw [hoperand] at h
        cases h

end LanguageTheory.Regex
