import LanguageTheory.Proofs.Regex.Reading

/-!
# Markers that are operators

An operator that is also a marker is taken for an operand wherever a term is tried before the operator:
a `+` always, a `)` unless it closes the `(` right before it, and a `*` where there is nothing to repeat
(`Markers.takes`). The character before decides (`Reader.Stands`). A pattern in which no operator is taken
is read as if other characters were the markers. One in which some are is read as the pattern with those
characters in their place, so it has more operands than the notation gives it (`operatorMarkers_exact`).
-/

namespace LanguageTheory.Regex

variable {A : Alphabet Char} {markers fresh : Markers} {pattern rest : List Char} {r : Regex Char}
  {c : Char} {before : Option Char} {place : Place} {inside : Bool} {move : Move} {position : Nat}

/-! ## Operators that are taken for operands -/

namespace Markers

/-- Whether a character is a marker. -/
def has (markers : Markers) (c : Char) : Bool :=
  c = markers.emptyWord || c = markers.emptyLanguage

/-- Where in its group a character stands, by the character before it. -/
def placeAfter (markers : Markers) : Option Char → Place
  | none => .opening
  | some c =>
      if c = '(' then .opening
      else if c = '+' ∧ markers.has '+' = false then .due
      else .after

/-- Whether an operator is taken for an operand, by the character before it. -/
def takes (markers : Markers) (before : Option Char) (c : Char) : Bool :=
  c ∈ operators ∧ markers.has c ∧ c ≠ '(' ∧ ¬ (c = ')' ∧ before = some '(') ∧
    ¬ (c = '*' ∧ markers.placeAfter before = .after)

/-- The number of operators of a text that are taken for operands. -/
def taken (markers : Markers) : Option Char → List Char → Nat
  | _, [] => 0
  | before, c :: rest => (markers.takes before c).toNat + markers.taken (some c) rest

/-- The text with the fresh markers for the operators that are taken for operands. -/
def disguise (markers fresh : Markers) : Option Char → List Char → List Char
  | _, [] => []
  | before, c :: rest =>
      (if markers.takes before c then
        if c = markers.emptyWord then fresh.emptyWord else fresh.emptyLanguage
      else c) :: markers.disguise fresh (some c) rest

/-- A marker that is an operator is replaced by a character of neither the alphabet nor the pattern, and
any other one is kept. -/
def Replaces (A : Alphabet Char) (pattern : List Char) (marker fresh : Char) : Prop :=
  if marker ∈ operators then fresh ∉ A ∧ fresh ∉ pattern else fresh = marker

instance {marker fresh : Char} : Decidable (Replaces A pattern marker fresh) :=
  inferInstanceAs (Decidable (if marker ∈ operators then fresh ∉ A ∧ fresh ∉ pattern
    else fresh = marker))

/-- Markers with others for those that are operators. -/
structure Frees (A : Alphabet Char) (pattern : List Char) (markers fresh : Markers) : Prop where
  emptyWord : Replaces A pattern markers.emptyWord fresh.emptyWord
  emptyLanguage : Replaces A pattern markers.emptyLanguage fresh.emptyLanguage

/-- Markers that can be written for operators. -/
structure StandsIn (markers fresh : Markers) : Prop where
  plain : fresh.Plain
  ne : markers.emptyLanguage ∈ operators → fresh.emptyLanguage ≠ fresh.emptyWord

theorem takes_iff : markers.takes before c ↔ c ∈ operators ∧ markers.has c ∧ c ≠ '(' ∧
    ¬ (c = ')' ∧ before = some '(') ∧ ¬ (c = '*' ∧ markers.placeAfter before = .after) := by
  rw [takes, decide_eq_true_eq]

theorem disguise_eq_self (h : markers.taken before rest = 0) :
    markers.disguise fresh before rest = rest := by
  induction rest generalizing before with
  | nil => rfl
  | cons c rest ih =>
      rw [taken, Nat.add_eq_zero_iff] at h
      have hnot : markers.takes before c = false := by
        cases htakes : markers.takes before c with
        | false => rfl
        | true =>
            rw [htakes] at h
            cases h.1
      rw [disguise, ih h.2, hnot, if_neg Bool.false_ne_true]

end Markers

/-! ## Single characters -/

theorem Markers.Replaces.eq_iff {marker fresh : Char} (h : Replaces A pattern marker fresh)
    (hc : c ∈ pattern) (hoperator : c ∈ operators → c ≠ marker) : c = fresh ↔ c = marker := by
  unfold Replaces at h
  split at h
  next hmarker =>
    refine iff_of_false ?_ ?_
    · intro hfresh
      exact h.2 (hfresh ▸ hc)
    · intro hmarker'
      exact hoperator (hmarker' ▸ hmarker) hmarker'
  next => rw [h]

theorem Markers.has_eq_false_iff :
    markers.has c = false ↔ c ≠ markers.emptyWord ∧ c ≠ markers.emptyLanguage := by
  simp [has]

/-- A character means the same by itself, unless it is an operator and a marker. -/
theorem operand?_of_frees (h : markers.Frees A pattern fresh) (hc : c ∈ pattern)
    (hoperator : c ∈ operators → markers.has c = false) :
    operand? A fresh c = operand? A markers c := by
  have hword := h.emptyWord.eq_iff hc fun hc => (Markers.has_eq_false_iff.mp (hoperator hc)).1
  have hlanguage := h.emptyLanguage.eq_iff hc fun hc =>
    (Markers.has_eq_false_iff.mp (hoperator hc)).2
  simp only [operand?, hword, hlanguage]

section Moves

variable (hplace : place = markers.placeAfter before)
  (hinside : place = .opening → (inside ↔ before = some '('))
include hplace hinside

theorem reserved_iff : (c = ')' ∧ place = .opening ∧ inside) ↔ c = ')' ∧ before = some '(' := by
  apply and_congr_right
  intro _
  constructor
  · intro h
    exact (hinside h.1).mp h.2
  · intro h
    have hopening : place = .opening := by
      rw [hplace, h, Markers.placeAfter, if_pos rfl]
    exact ⟨hopening, (hinside hopening).mpr h⟩

/-- An operator that is taken for an operand is one. -/
theorem moveOf_of_takes (htakes : markers.takes before c) :
    moveOf A markers place inside c =
      .ok (.operand (if c = markers.emptyWord then emptyWord else emptyLanguage)) := by
  obtain ⟨hoperator, hhas, hopen, hclose, hstar⟩ := Markers.takes_iff.mp htakes
  rw [← hplace] at hstar
  rw [← reserved_iff hplace hinside] at hclose
  have hoperand : operand? A markers c =
      some (if c = markers.emptyWord then emptyWord else emptyLanguage) := by
    have hsymbol : ¬ (c ∉ operators ∧ c ∈ A) := fun h => h.1 hoperator
    rw [operand?, if_neg hsymbol]
    by_cases hword : c = markers.emptyWord
    · rw [if_pos hword, if_pos hword]
    · have hlanguage : c = markers.emptyLanguage := by
        simpa [Markers.has, hword] using hhas
      rw [if_neg hword, if_neg hword, if_pos hlanguage]
  rw [moveOf_of_not_reserved hopen hclose hstar, hoperand]

/-- Any other character does what it does where the markers are no operators. -/
theorem moveOf_of_frees (h : markers.Frees A pattern fresh) (hc : c ∈ pattern)
    (hnot : markers.takes before c = false) :
    moveOf A fresh place inside c = moveOf A markers place inside c := by
  -- the markers have no part in the moves that come before an operand is tried
  by_cases hopen : c = '('
  · rw [hopen, moveOf_openParenthesis, moveOf_openParenthesis]
  by_cases hclose : c = ')' ∧ place = .opening ∧ inside
  · rw [moveOf, moveOf, if_neg hopen, if_neg hopen, if_pos hclose, if_pos hclose]
  by_cases hstar : c = '*' ∧ place = .after
  · rw [moveOf, moveOf, if_neg hopen, if_neg hopen, if_neg hclose, if_neg hclose, if_pos hstar,
      if_pos hstar]
  have hoperator : c ∈ operators → markers.has c = false := by
    intro hoperator
    apply Bool.eq_false_iff.mpr
    intro hhas
    have htakes : markers.takes before c := Markers.takes_iff.mpr
      ⟨hoperator, hhas, hopen, fun h => hclose ((reserved_iff hplace hinside).mpr h),
        fun h => hstar (hplace ▸ h)⟩
    rw [htakes] at hnot
    cases hnot
  rw [moveOf_of_not_reserved hopen hclose hstar, moveOf_of_not_reserved hopen hclose hstar,
    operand?_of_frees h hc hoperator]

end Moves

/-- What is written for an operator that is taken for an operand is that operand. -/
theorem moveOf_standIn (h : markers.Frees A pattern fresh) (hfresh : markers.StandsIn fresh)
    (htakes : markers.takes before c) :
    moveOf A fresh place inside
        (if c = markers.emptyWord then fresh.emptyWord else fresh.emptyLanguage) =
      .ok (.operand (if c = markers.emptyWord then emptyWord else emptyLanguage)) := by
  obtain ⟨hoperator, hhas, -⟩ := Markers.takes_iff.mp htakes
  by_cases hword : c = markers.emptyWord
  · rw [if_pos hword, if_pos hword, moveOf_of_not_mem_operators hfresh.plain.emptyWord]
    have hreplaced := h.emptyWord
    rw [Markers.Replaces, if_pos (hword ▸ hoperator)] at hreplaced
    simp [operand?, hreplaced.1]
  · rw [if_neg hword, if_neg hword, moveOf_of_not_mem_operators hfresh.plain.emptyLanguage]
    have hlanguage : c = markers.emptyLanguage := by
      simpa [Markers.has, hword] using hhas
    have hreplaced := h.emptyLanguage
    rw [Markers.Replaces, if_pos (hlanguage ▸ hoperator)] at hreplaced
    simp [operand?, hreplaced.1, hfresh.ne (hlanguage ▸ hoperator)]

theorem operand?_eq_none_iff (hc : c ∈ operators) :
    operand? A markers c = none ↔ markers.has c = false := by
  have hsymbol : ¬ (c ∉ operators ∧ c ∈ A) := fun h => h.1 hc
  rw [operand?, if_neg hsymbol, Markers.has_eq_false_iff]
  by_cases hword : c = markers.emptyWord
  · simp [hword]
  by_cases hlanguage : c = markers.emptyLanguage
  · rw [if_neg hword, if_pos hlanguage]
    simp [hlanguage]
  · simp [hword, hlanguage]

/-- What a character is that makes a move, whatever the markers. -/
def Move.Made (A : Alphabet Char) (markers : Markers) (place : Place) (inside : Bool) (c : Char) :
    Move → Prop
  | openGroup => c = '('
  | closeGroup => c = ')' ∧ inside ∧
      (place = .opening ∨ place = .after ∧ operand? A markers ')' = none)
  | alternative => c = '+' ∧ place = .after ∧ operand? A markers '+' = none
  | star => c = '*' ∧ place = .after
  | operand r => c ≠ '(' ∧ ¬ (c = ')' ∧ place = .opening ∧ inside) ∧ ¬ (c = '*' ∧ place = .after) ∧
      operand? A markers c = some r

theorem made_of_moveOf_eq_ok (h : moveOf A markers place inside c = .ok move) :
    move.Made A markers place inside c := by
  by_cases hopen : c = '('
  · rw [hopen, moveOf_openParenthesis] at h
    obtain rfl := Except.ok.inj h
    exact hopen
  by_cases hclose : c = ')' ∧ place = .opening ∧ inside
  · rw [moveOf, if_neg hopen, if_pos hclose] at h
    obtain rfl := Except.ok.inj h
    exact ⟨hclose.1, hclose.2.2, .inl hclose.2.1⟩
  by_cases hstar : c = '*' ∧ place = .after
  · rw [moveOf, if_neg hopen, if_neg hclose, if_pos hstar] at h
    obtain rfl := Except.ok.inj h
    exact hstar
  rw [moveOf_of_not_reserved hopen hclose hstar] at h
  cases hoperand : operand? A markers c with
  | some r =>
      rw [hoperand] at h
      obtain rfl := Except.ok.inj h
      exact ⟨hopen, hclose, hstar, hoperand⟩
  | none =>
      rw [hoperand] at h
      dsimp only at h
      split at h
      next => cases h
      next hoperator =>
        split at h
        next => cases h
        next hafter =>
          have hplace : place = .after := Decidable.not_not.mp hafter
          have hmem := Decidable.not_not.mp hoperator
          -- an operator that is no operand and comes after a whole one
          simp only [operators, List.mem_cons, List.not_mem_nil, or_false, hopen, false_or] at hmem
          rcases hmem with rfl | rfl | rfl
          · rw [if_neg (by decide)] at h
            split at h
            next hinside =>
              obtain rfl := Except.ok.inj h
              exact ⟨rfl, hinside, .inr ⟨hplace, hoperand⟩⟩
            next => cases h
          · exact absurd ⟨rfl, hplace⟩ hstar
          · obtain rfl := Except.ok.inj h
            exact ⟨rfl, hplace, hoperand⟩

/-! ## Readers and the character before -/

namespace Reader

/-- Where a reader stands after a character: what matters for the next one. -/
structure Stands (markers : Markers) (before : Option Char) (s : Reader) : Prop where
  place_eq : s.group.place = markers.placeAfter before
  inside_iff : s.group.place = .opening → (!s.outer.isEmpty ↔ before = some '(')
  group_eq : s.group.place = .opening → s.group = {}

namespace Stands

variable {s t : Reader}

theorem start : Stands markers none {} :=
  ⟨rfl, fun _ => iff_of_false Bool.false_ne_true (Option.some_ne_none _).symm, fun _ => rfl⟩

theorem of_after (hplace : s.group.place = .after) (hc : markers.placeAfter (some c) = .after) :
    Stands markers (some c) s where
  place_eq := hplace.trans hc.symm
  inside_iff h := by
    rw [hplace] at h
    cases h
  group_eq h := by
    rw [hplace] at h
    cases h

theorem apply (hmade : move.Made A markers s.group.place (!s.outer.isEmpty) c) :
    Stands markers (some c) (s.apply position move) := by
  cases move with
  | openGroup =>
      obtain rfl : c = '(' := hmade
      exact ⟨rfl, fun _ => iff_of_true rfl rfl, fun _ => rfl⟩
  | closeGroup =>
      obtain ⟨rfl, hinside, -⟩ := hmade
      obtain ⟨group, outer⟩ := s
      cases outer with
      | nil => cases hinside
      | cons => exact of_after (Group.place_push _ _) rfl
  | alternative =>
      obtain ⟨rfl, -, hnone⟩ := hmade
      have hplus := (operand?_eq_none_iff (by decide)).mp hnone
      have hdue : markers.placeAfter (some '+') = .due := if_pos ⟨rfl, hplus⟩
      refine ⟨hdue.symm, ?_, ?_⟩
      · intro h
        cases h
      · intro h
        cases h
  | star =>
      obtain ⟨rfl, hplace⟩ := hmade
      refine of_after ?_ rfl
      obtain ⟨⟨alternatives, factors, last⟩, outer⟩ := s
      cases last with
      | some => rfl
      | none => cases alternatives <;> cases hplace
  | operand r =>
      obtain ⟨hopen, -, -, hoperand⟩ := hmade
      refine of_after (Group.place_push _ _) ?_
      -- a `+` that has been read as an operand joins nothing
      have hplus : ¬ (c = '+' ∧ markers.has '+' = false) := by
        intro h
        obtain ⟨rfl, hnone⟩ := h
        rw [(operand?_eq_none_iff (by decide)).mpr hnone] at hoperand
        cases hoperand
      rw [Markers.placeAfter, if_neg hopen, if_neg hplus]

theorem step (h : s.step A markers position c = .ok t) : Stands markers (some c) t := by
  unfold Reader.step at h
  split at h
  next move hmove =>
    obtain rfl := Except.ok.inj h
    exact apply (made_of_moveOf_eq_ok hmove)
  next => cases h

/-! ## Disguised operators -/

/-- Where operators are taken for operands, the fresh markers may be written for them. -/
theorem read_disguise (h : s.Stands markers before) (hfrees : markers.Frees A pattern fresh)
    (hrest : ∀ c ∈ rest, c ∈ pattern)
    (hfresh : markers.taken before rest = 0 ∨ markers.StandsIn fresh) :
    s.read A fresh position (markers.disguise fresh before rest) =
      s.read A markers position rest := by
  induction rest generalizing s before position with
  | nil => rfl
  | cons c rest ih =>
      have hmove : moveOf A fresh s.group.place (!s.outer.isEmpty)
            (if markers.takes before c then
              if c = markers.emptyWord then fresh.emptyWord else fresh.emptyLanguage
            else c) =
          moveOf A markers s.group.place (!s.outer.isEmpty) c := by
        cases htakes : markers.takes before c with
        | false =>
            have hmem := hrest c List.mem_cons_self
            rw [if_neg Bool.false_ne_true]
            exact moveOf_of_frees h.place_eq h.inside_iff hfrees hmem htakes
        | true =>
            rw [if_pos rfl]
            have hstandsIn : markers.StandsIn fresh := by
              refine hfresh.resolve_left ?_
              rw [Markers.taken, htakes, Bool.toNat_true]
              omega
            rw [moveOf_of_takes h.place_eq h.inside_iff htakes]
            exact moveOf_standIn hfrees hstandsIn htakes
      have htail : markers.taken (some c) rest = 0 ∨ markers.StandsIn fresh :=
        hfresh.imp_left fun hnone => (Nat.add_eq_zero_iff.mp hnone).2
      rw [Markers.disguise, read, read, Reader.step, hmove, ← Reader.step]
      cases hstep : s.step A markers position c with
      | error fault => rfl
      | ok t => exact ih (step hstep) (fun d hd => hrest d (List.mem_cons_of_mem c hd)) htail

end Stands

end Reader

/-! ## Operands in patterns and leaves of expressions -/

/-- The number of leaves of an expression. -/
def leaves : Regex Char → Nat
  | emptyLanguage | emptyWord | symbol _ => 1
  | concat first second => first.leaves + second.leaves
  | union left right => left.leaves + right.leaves
  | star item => item.leaves

/-- The leaves of an expression that may be missing. -/
def leavesOf : Option (Regex Char) → Nat
  | none => 0
  | some r => r.leaves

/-- The number of operands that a text has in the notation: characters that are no operators, and
parentheses with nothing in them. -/
def operandsIn : Option Char → List Char → Nat
  | _, [] => 0
  | before, c :: rest =>
      (if c ∉ operators ∨ c = ')' ∧ before = some '(' then 1 else 0) + operandsIn (some c) rest

theorem leaves_joined {join : Regex Char → Regex Char → Regex Char}
    (hjoin : ∀ first second, (join first second).leaves = first.leaves + second.leaves)
    (earlier : Option (Regex Char)) (r : Regex Char) :
    (Group.joined join earlier r).leaves = leavesOf earlier + r.leaves := by
  cases earlier with
  | none => exact (Nat.zero_add _).symm
  | some earlier => exact hjoin earlier r

theorem leaves_of_operand? (h : operand? A markers c = some r) : r.leaves = 1 := by
  unfold operand? at h
  split at h
  next =>
    obtain rfl := Option.some.inj h
    rfl
  next =>
    split at h
    next =>
      obtain rfl := Option.some.inj h
      rfl
    next =>
      split at h
      next =>
        obtain rfl := Option.some.inj h
        rfl
      next => cases h

namespace Group

variable {g : Group}

/-- The leaves of what has been read of a group. -/
def leaves (g : Group) : Nat := leavesOf g.alternatives + leavesOf g.factors + leavesOf g.last

theorem leaves_push : (g.push r).leaves = g.leaves + r.leaves := by
  obtain ⟨alternatives, factors, last⟩ := g
  cases last with
  | none => rfl
  | some last =>
      have hjoined : (joined concat factors last).leaves = leavesOf factors + last.leaves :=
        leaves_joined (fun _ _ => rfl) factors last
      simp only [push, leaves, leavesOf, hjoined]
      omega

theorem leaves_value (hplace : g.place = .after) : g.value.leaves = g.leaves := by
  obtain ⟨alternatives, factors, last⟩ := g
  cases last with
  | none => cases alternatives <;> cases hplace
  | some last =>
      calc (joined union alternatives (joined concat factors last)).leaves
        _ = leavesOf alternatives + (joined concat factors last).leaves :=
          leaves_joined (fun _ _ => rfl) alternatives _
        _ = leavesOf alternatives + (leavesOf factors + last.leaves) := by
          rw [leaves_joined (fun _ _ => rfl) factors last]
        _ = leavesOf alternatives + leavesOf factors + last.leaves := (Nat.add_assoc _ _ _).symm

theorem leaves_starLast : g.starLast.leaves = g.leaves := by
  obtain ⟨alternatives, factors, last⟩ := g
  cases last <;> rfl

theorem leaves_alternative (hplace : g.place = .after) : g.alternative.leaves = g.leaves := by
  have halternative : g.alternative.leaves = g.value.leaves := rfl
  rw [halternative, leaves_value hplace]

end Group

namespace Reader

variable {s t : Reader}

/-- The leaves of all that has been read. -/
def leaves (s : Reader) : Nat :=
  s.group.leaves + s.outer.foldr (fun opened around => opened.2.leaves + around) 0

/-- The leaves that a move adds. -/
def added (place : Place) : Move → Nat
  | .operand _ => 1
  | .closeGroup => if place = .opening then 1 else 0
  | _ => 0

variable (h : s.Stands markers before)
  (hmade : move.Made A markers s.group.place (!s.outer.isEmpty) c)
include h hmade

theorem Stands.leaves_apply :
    (s.apply position move).leaves = s.leaves + added s.group.place move := by
  obtain ⟨group, outer⟩ := s
  cases move with
  | openGroup => exact Nat.zero_add _
  | closeGroup =>
      obtain ⟨rfl, hinside, hplace⟩ := hmade
      cases outer with
      | nil => cases hinside
      | cons opened outer =>
          simp only [Reader.apply, leaves, Group.leaves_push, added, List.foldr_cons]
          rcases hplace with hopening | ⟨hafter, -⟩
          · obtain rfl : group = {} := h.group_eq hopening
            simp only [Group.value, Group.leaves, Regex.leaves, leavesOf, hopening, if_true]
            omega
          · have hplace : group.place = .after := hafter
            rw [Group.leaves_value hplace, hplace, if_neg (by decide)]
            omega
  | alternative => simp only [Reader.apply, leaves, Group.leaves_alternative hmade.2.1, added,
      Nat.add_zero]
  | star => simp only [Reader.apply, leaves, Group.leaves_starLast, added, Nat.add_zero]
  | operand r =>
      simp only [Reader.apply, leaves, Group.leaves_push, leaves_of_operand? hmade.2.2.2, added]
      omega

/-- They are those of an operand of the notation, or of an operator that is taken for one. -/
theorem Stands.added_eq : added s.group.place move =
    (if c ∉ operators ∨ c = ')' ∧ before = some '(' then 1 else 0) +
      (markers.takes before c).toNat := by
  have hreserved : (c = ')' ∧ s.group.place = .opening ∧ !s.outer.isEmpty) ↔
      c = ')' ∧ before = some '(' := reserved_iff h.place_eq h.inside_iff
  have hnot : markers.has c = false → markers.takes before c = false := by
    intro hhas
    simp [Markers.takes, hhas]
  cases move with
  | openGroup =>
      obtain rfl : c = '(' := hmade
      simp [added, Markers.takes, operators]
  | closeGroup =>
      obtain ⟨rfl, hinside, hplace⟩ := hmade
      rcases hplace with hopening | ⟨hafter, hnone⟩
      · have hbefore := (hreserved.mp ⟨rfl, hopening, hinside⟩).2
        simp [added, hopening, hbefore, Markers.takes]
      · have hhas := (operand?_eq_none_iff (by decide)).mp hnone
        have hbefore : before ≠ some '(' := by
          intro hbefore
          have hopening := (hreserved.mpr ⟨rfl, hbefore⟩).2.1
          rw [hafter] at hopening
          cases hopening
        simp [added, hafter, hbefore, hnot hhas, operators]
  | alternative =>
      obtain ⟨rfl, -, hnone⟩ := hmade
      have hhas := (operand?_eq_none_iff (by decide)).mp hnone
      simp [added, hnot hhas, operators]
  | star =>
      obtain ⟨rfl, hplace⟩ := hmade
      have htakes : markers.takes before '*' = false := by
        simp [Markers.takes, ← h.place_eq, hplace]
      simp [added, htakes, operators]
  | operand r =>
      obtain ⟨hopen, hclose, hstar, hoperand⟩ := hmade
      rw [hreserved] at hclose
      rw [h.place_eq] at hstar
      by_cases hoperator : c ∈ operators
      · have hhas : markers.has c := by
          cases hhas : markers.has c with
          | true => rfl
          | false =>
              rw [(operand?_eq_none_iff hoperator).mpr hhas] at hoperand
              cases hoperand
        have htakes : markers.takes before c :=
          Markers.takes_iff.mpr ⟨hoperator, hhas, hopen, hclose, hstar⟩
        -- it is an operand of this reading and not of the notation
        have hnotation : ¬ (c ∉ operators ∨ c = ')' ∧ before = some '(') := by
          intro hcases
          exact hcases.elim (fun hc => hc hoperator) hclose
        rw [htakes, if_neg hnotation]
        rfl
      · have htakes : markers.takes before c = false := by
          simp [Markers.takes, hoperator]
        rw [htakes, if_pos (.inl hoperator)]
        rfl

omit hmade

theorem Stands.leaves_of_step (hstep : s.step A markers position c = .ok t) :
    t.leaves = s.leaves + ((if c ∉ operators ∨ c = ')' ∧ before = some '(' then 1 else 0) +
      (markers.takes before c).toNat) := by
  unfold Reader.step at hstep
  split at hstep
  next move hmove =>
    obtain rfl := Except.ok.inj hstep
    have hmade := made_of_moveOf_eq_ok hmove
    rw [h.leaves_apply hmade, h.added_eq hmade]
  next => cases hstep

theorem Stands.leaves_of_finish (hbefore : before ≠ none) (hfinish : s.finish position = .ok r) :
    r.leaves = s.leaves := by
  obtain ⟨group, outer⟩ := s
  cases outer with
  | cons => cases hfinish
  | nil =>
      unfold finish at hfinish
      cases hplace : group.place with
      | due => simp [hplace] at hfinish
      | opening =>
          -- only the start of a pattern and of a group are at an opening
          have hopened : before ≠ some '(' := fun hbefore =>
            Bool.false_ne_true ((h.inside_iff hplace).mpr hbefore)
          have hstand := hplace.symm.trans h.place_eq
          cases before with
          | none => exact absurd rfl hbefore
          | some d =>
              rw [Markers.placeAfter, if_neg fun hd => hopened (congrArg some hd)] at hstand
              split at hstand <;> cases hstand
      | after =>
          simp only [hplace, reduceCtorEq, if_false, Except.ok.injEq] at hfinish
          rw [← hfinish, Group.leaves_value hplace]
          rfl

/-- Whatever a reader goes on to read, each operand becomes a leaf. -/
theorem Stands.leaves_of_read (hrest : before = none → rest ≠ [])
    (hread : s.read A markers position rest = .ok r) :
    r.leaves = s.leaves + (operandsIn before rest + markers.taken before rest) := by
  induction rest generalizing s before position with
  | nil => exact h.leaves_of_finish (fun hnone => hrest hnone rfl) hread
  | cons c rest ih =>
      rw [read] at hread
      cases hstep : s.step A markers position c with
      | error fault =>
          rw [hstep] at hread
          cases hread
      | ok t =>
          rw [hstep] at hread
          have hleaves := ih (step hstep) (fun hc => absurd hc (Option.some_ne_none c)) hread
          rw [hleaves, h.leaves_of_step hstep, operandsIn, Markers.taken]
          omega

end Reader

/-! ## Patterns -/

theorem Markers.Replaces.ne {marker fresh : Char} (h : Replaces A pattern marker fresh)
    (hc : c ∈ pattern) (hoperator : c ∈ operators) : c ≠ fresh := by
  intro hfresh
  unfold Replaces at h
  split at h
  next => exact h.2 (hfresh ▸ hc)
  next hmarker => exact hmarker (h ▸ hfresh ▸ hoperator)

/-- The fresh markers take no operator. -/
theorem Markers.Frees.taken_eq_zero (h : markers.Frees A pattern fresh)
    (hrest : ∀ c ∈ rest, c ∈ pattern) : fresh.taken before rest = 0 := by
  induction rest generalizing before with
  | nil => rfl
  | cons c rest ih =>
      have hc := hrest c List.mem_cons_self
      have hnot : fresh.takes before c = false := by
        apply Bool.eq_false_iff.mpr
        intro htakes
        obtain ⟨hoperator, hhas, -⟩ := takes_iff.mp htakes
        have hnone : fresh.has c = false :=
          has_eq_false_iff.mpr ⟨h.emptyWord.ne hc hoperator, h.emptyLanguage.ne hc hoperator⟩
        rw [hnone] at hhas
        cases hhas
      rw [taken, hnot, ih fun d hd => hrest d (List.mem_cons_of_mem c hd)]
      rfl

theorem leaves_of_parseWith (hpattern : pattern ≠ []) (h : parseWith A markers pattern = .ok r) :
    r.leaves = operandsIn none pattern + markers.taken none pattern := by
  have hleaves := Reader.Stands.start.leaves_of_read (fun _ => hpattern) h
  rw [hleaves]
  exact Nat.zero_add _

/-- Operators that are taken for operands are read as the fresh markers in their place. The two readings
of a pattern agree when there are none, and otherwise only when both end in the same fault: if the
pattern is read, every operator that is taken is one leaf more. -/
theorem operatorMarkers_exact (h : markers.Frees A pattern fresh) :
    (markers.StandsIn fresh →
      parseWith A markers pattern = parseWith A fresh (markers.disguise fresh none pattern)) ∧
    (parseWith A markers pattern = parseWith A fresh pattern ↔
      markers.taken none pattern = 0 ∨ ∃ fault, parseWith A markers pattern = .error fault ∧
        parseWith A fresh pattern = .error fault) := by
  have hread (hfresh : markers.taken none pattern = 0 ∨ markers.StandsIn fresh) :
      parseWith A fresh (markers.disguise fresh none pattern) = parseWith A markers pattern :=
    Reader.Stands.start.read_disguise h (fun _ hc => hc) hfresh
  refine ⟨fun hfresh => (hread (.inr hfresh)).symm, ?_, ?_⟩
  · intro hsame
    by_cases hpattern : pattern = []
    · exact .inl (by rw [hpattern]; rfl)
    cases hparse : parseWith A markers pattern with
    | error fault => exact .inr ⟨fault, rfl, hsame.symm.trans hparse⟩
    | ok r =>
        -- both readings have the same leaves, and the fresh markers take no operator
        have hmarkers := leaves_of_parseWith hpattern hparse
        have hfresh := leaves_of_parseWith hpattern (hsame.symm.trans hparse)
        rw [h.taken_eq_zero fun _ hc => hc] at hfresh
        left
        omega
  · intro hcases
    rcases hcases with hnone | ⟨fault, hmarkers, hfresh⟩
    · rw [← hread (.inl hnone), Markers.disguise_eq_self hnone]
    · rw [hmarkers, hfresh]

theorem frees_plus :
    Markers.Frees {'a'} ['a', '+', 'a'] { emptyWord := '+' } {} :=
  ⟨by decide, by decide⟩

/-- A `+` between operands, as a marker, is one more factor. -/
theorem operatorMarkers_exact_plus :
    parseWith {'a'} { emptyWord := '+' } ['a', '+', 'a'] = parseWith {'a'} {} ['a', 'λ', 'a'] ∧
    parseWith {'a'} { emptyWord := '+' } ['a', '+', 'a'] ≠ parseWith {'a'} {} ['a', '+', 'a'] := by
  obtain ⟨hdisguise, hsame⟩ := operatorMarkers_exact frees_plus
  refine ⟨hdisguise ⟨plain_default, by decide⟩, ?_⟩
  intro h
  rcases hsame.mp h with hnone | ⟨fault, hfault, -⟩
  · cases hnone
  · cases hfault

theorem plus_taken_for_operand : Markers.Frees {'a'} ['a', '+', 'a'] { emptyWord := '+' } {} ∧
    parseWith {'a'} { emptyWord := '+' } ['a', '+', 'a'] =
      .ok (concat (concat (symbol 'a') emptyWord) (symbol 'a')) ∧
    parseWith {'a'} {} ['a', '+', 'a'] = .ok (union (symbol 'a') (symbol 'a')) :=
  ⟨frees_plus, rfl, rfl⟩

end LanguageTheory.Regex
