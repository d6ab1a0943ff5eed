import LanguageTheory.Regex.Descent
import LanguageTheory.Proofs.Regex.Reading

/-!
# The descent and the reader

Taking a pattern apart from the top and reading it character by character come to the same
(`parseWith_eq_descend`). The descent stops at what is left of the pattern and does not know the
groups around; a reader does (`Stop.fault`). Part by part, a descent that succeeds leaves as much of
the pattern as a reader that keeps what has been read, and one that fails has the reader's fault.
-/

namespace LanguageTheory.Regex

variable {A : Alphabet Char} {markers : Markers} {total : Nat} {g : Group}
  {outer : List (Nat × Group)} {text rest : List Char} {c : Char} {r : Regex Char}
  {kind : SyntaxFault.Kind} {answer : Except SyntaxFault (Regex Char)}

/-! ## The rest of a pattern -/

/-- What a reader makes of the rest of a pattern of a length. -/
def Reader.readRest (A : Alphabet Char) (markers : Markers) (total : Nat) (s : Reader)
    (rest : List Char) : Except SyntaxFault (Regex Char) :=
  s.read A markers (total - rest.length) rest

namespace Reader

theorem readRest_cons_of_move (move : Move) (hlength : (c :: rest).length ≤ total)
    (hmove : moveOf A markers g.place (!outer.isEmpty) c = .ok move) :
    readRest A markers total ⟨g, outer⟩ (c :: rest) =
      readRest A markers total (apply ⟨g, outer⟩ (total - (c :: rest).length) move) rest := by
  have hposition : total - (c :: rest).length + 1 = total - rest.length := by
    rw [List.length_cons] at hlength ⊢
    omega
  unfold readRest
  rw [← hposition]
  simp only [read, step, hmove]

theorem readRest_cons_of_error (hkind : moveOf A markers g.place (!outer.isEmpty) c = .error kind) :
    readRest A markers total ⟨g, outer⟩ (c :: rest) =
      .error ⟨kind, total - (c :: rest).length⟩ := by
  simp only [readRest, read, step, hkind]

end Reader

/-- The fault of a pattern of a length, when a part of it cannot be read. An operand that is missing
where the pattern ends in a group is the fault of the parenthesis that opens the group. -/
def Stop.fault (total : Nat) (outer : List (Nat × Group)) (stop : Stop) : SyntaxFault :=
  if stop.kind = .missingOperand ∧ stop.rest = [] then
    match outer with
    | [] => ⟨.missingOperand, total⟩
    | (opened, _) :: _ => ⟨.unbalancedParenthesis, opened⟩
  else ⟨stop.kind, total - stop.rest.length⟩

namespace Stop

variable {stop : Stop}

theorem fault_eq (h : ¬ (stop.kind = .missingOperand ∧ stop.rest = [])) :
    stop.fault total outer = ⟨stop.kind, total - stop.rest.length⟩ := if_neg h

/-- Outside of all groups the end of the pattern is a position like any other. -/
theorem fault_outermost : stop.fault total [] = ⟨stop.kind, total - stop.rest.length⟩ := by
  unfold fault
  split
  next hend =>
    rw [hend.1, hend.2]
    rfl
  next => rfl

end Stop

namespace Descent

/-- A text is at its end or goes on with one of some characters, which is no operand. -/
def Halts (A : Alphabet Char) (markers : Markers) (allowed text : List Char) : Prop :=
  ∀ c rest, text = c :: rest → c ∈ allowed ∧ operand? A markers c = none

theorem Halts.of_after? {allowed : List Char} (h : Halts A markers (c :: allowed) text)
    (hnone : after? c text = none) : Halts A markers allowed text := by
  intro d rest htext
  obtain ⟨hmem, hoperand⟩ := h d rest htext
  refine ⟨(List.mem_cons.mp hmem).resolve_left ?_, hoperand⟩
  intro hd
  rw [htext, hd, after?_eq_some.mpr rfl] at hnone
  cases hnone

/-- A descent has the answer of a reader, or it comes to the same rest of the pattern together with
the reader, which has read the same. -/
inductive Follows (A : Alphabet Char) (markers : Markers) (total : Nat) (outer : List (Nat × Group))
    (Read : Regex Char → List Char → Group → Prop) {text : List Char}
    (answer : Except SyntaxFault (Regex Char)) : Descent text → Prop
  | ok {parsed : Parsed text} {g : Group} : Read parsed.value parsed.rest g →
      answer = Reader.readRest A markers total ⟨g, outer⟩ parsed.rest →
      Follows A markers total outer Read answer (.ok parsed)
  | error {kind : SyntaxFault.Kind} {rest : List Char} :
      answer = .error (Stop.fault total outer ⟨true, kind, rest⟩) →
      Follows A markers total outer Read answer (.error ⟨true, kind, rest⟩)

/-- A reader that has read a term. -/
def TermRead (around : Group) (r : Regex Char) (_ : List Char) (g : Group) : Prop :=
  g = around.push r

/-- A reader that has read a term with all its stars. -/
structure StarredRead (around : Group) (r : Regex Char) (rest : List Char) (g : Group) : Prop where
  group_eq : g = around.push r
  noStar : after? '*' rest = none

/-- A reader whose last alternative is a concatenation. -/
def Concatenated (left : Option (Regex Char)) (r : Regex Char) (g : Group) : Prop :=
  ∃ factors last, g = ⟨left, factors, some last⟩ ∧ Group.joined concat factors last = r

/-- A reader that has read a concatenation as far as it goes. -/
structure ConcatenationRead (A : Alphabet Char) (markers : Markers) (left : Option (Regex Char))
    (r : Regex Char) (rest : List Char) (g : Group) : Prop where
  concatenated : Concatenated left r g
  halts : Halts A markers ['+', ')'] rest

/-- A reader that has read a union as far as it goes. -/
structure UnionRead (A : Alphabet Char) (markers : Markers) (r : Regex Char) (rest : List Char)
    (g : Group) : Prop where
  place_eq : g.place = .after
  value_eq : g.value = r
  halts : Halts A markers [')'] rest

/-- A union is followed from the beginning of a pattern that is not empty, and from the beginning of
a group that is not closed at once. -/
def UnionFollowed (A : Alphabet Char) (markers : Markers) (text : List Char) : Prop :=
  ∀ outer total, text.length ≤ total → (outer = [] → text ≠ []) →
    (outer ≠ [] → after? ')' text = none) →
    Follows A markers total outer (UnionRead A markers)
      (Reader.readRest A markers total ⟨{}, outer⟩ text) (union A markers text)

/-! ## Groups -/

theorem moveOf_afterUnion {place : Place} {inside : Bool} (hplace : place = .after)
    (hoperand : operand? A markers ')' = none) : moveOf A markers place inside ')' =
      if inside then .ok .closeGroup else .error .unbalancedParenthesis := by
  simp [moveOf, hplace, hoperand, operators]

/-- Where the descent into a group fails at the end of the pattern, the reader has the parenthesis that
opens the group on its stack. -/
theorem enclosed_follows {inner : List Char} (hinner : inner.length < text.length)
    (hlength : text.length ≤ total) {group : Descent inner}
    (h : Follows A markers total ((total - text.length, g) :: outer) (UnionRead A markers)
      answer group) :
    Follows A markers total outer (TermRead g) answer (enclosed hinner group) := by
  cases h with
  | error hanswer =>
      rw [enclosed]
      split
      next hmissing =>
        obtain ⟨-, rfl, rfl⟩ := hmissing
        exact .error hanswer
      next hmissing =>
        refine .error (hanswer.trans ?_)
        rw [Stop.fault_eq fun h => hmissing ⟨rfl, h⟩, Stop.fault_eq fun h => hmissing ⟨rfl, h⟩]
  | @ok parsed t hread hanswer =>
      rw [enclosed]
      split
      next rest hclose =>
        have hrest : parsed.rest = ')' :: rest := after?_eq_some.mp hclose
        have hmove : moveOf A markers t.place true ')' = .ok .closeGroup :=
          moveOf_afterUnion hread.place_eq (hread.halts _ _ hrest).2
        have hshort : (')' :: rest).length ≤ total := by
          rw [← hrest]
          exact Nat.le_trans (Nat.le_of_lt (Nat.lt_trans parsed.shorter hinner)) hlength
        rw [hrest] at hanswer
        refine .ok ?_ (hanswer.trans (Reader.readRest_cons_of_move .closeGroup hshort hmove))
        rw [TermRead, hread.value_eq]
      next hclose =>
        cases hrest : parsed.rest with
        | nil =>
            rw [hrest] at hanswer
            exact .error hanswer
        | cons c rest =>
            obtain ⟨hc, -⟩ := hread.halts _ _ hrest
            rw [hrest, List.mem_singleton.mp hc, after?_eq_some.mpr rfl] at hclose
            cases hclose

theorem parenthesized_follows (h : ∀ inner, text = '(' :: inner → UnionFollowed A markers inner)
    (hlength : text.length ≤ total) :
    parenthesized A markers text = refuse text ∧ after? '(' text = none ∨
    Follows A markers total outer (TermRead g) (Reader.readRest A markers total ⟨g, outer⟩ text)
      (parenthesized A markers text) := by
  rw [parenthesized]
  split
  next hopen => exact .inl ⟨rfl, hopen⟩
  next inner hopen =>
    right
    obtain rfl := after?_eq_some.mp hopen
    have hinner : inner.length ≤ total := Nat.le_of_succ_le hlength
    -- the reader opens the group too
    have hread : Reader.readRest A markers total ⟨g, outer⟩ ('(' :: inner) =
        Reader.readRest A markers total ⟨{}, (total - ('(' :: inner).length, g) :: outer⟩ inner :=
      Reader.readRest_cons_of_move .openGroup hlength moveOf_openParenthesis
    rw [hread]
    split
    next rest hempty =>
      obtain rfl := after?_eq_some.mp hempty
      exact .ok rfl (Reader.readRest_cons_of_move .closeGroup hinner rfl)
    next hempty =>
      refine enclosed_follows (length_after? hopen) hlength ?_
      exact h inner rfl _ total hinner (fun h => absurd h (List.cons_ne_nil _ _)) fun _ => hempty

/-! ## Terms -/

/-- A reader has no use for the next character but as the beginning of a term, or of what comes after
the terms. -/
structure AtTerm (g : Group) (outer : List (Nat × Group)) (text : List Char) : Prop where
  noStar : g.place = .after → after? '*' text = none
  notClosed : g.place = .opening → outer ≠ [] → after? ')' text = none

theorem AtTerm.moveOf_eq (A : Alphabet Char) (markers : Markers) (h : AtTerm g outer (c :: rest))
    (hopen : c ≠ '(') : moveOf A markers g.place (!outer.isEmpty) c =
      match operand? A markers c with
      | some r => .ok (.operand r)
      | none =>
          if c ∉ operators then .error (.unknownSymbol c)
          else if g.place ≠ .after then .error .missingOperand
          else if c = '+' then .ok .alternative
          else if !outer.isEmpty then .ok .closeGroup
          else .error .unbalancedParenthesis := by
  have hstar : ¬ (c = '*' ∧ g.place = .after) := by
    intro ⟨hc, hplace⟩
    have hnone := h.noStar hplace
    rw [hc, after?_eq_some.mpr rfl] at hnone
    cases hnone
  have hclose : ¬ (c = ')' ∧ g.place = .opening ∧ !outer.isEmpty) := by
    intro ⟨hc, hplace, hinside⟩
    have hnone := h.notClosed hplace (by simpa using hinside)
    rw [hc, after?_eq_some.mpr rfl] at hnone
    cases hnone
  exact moveOf_of_not_reserved hopen hclose hstar

/-- What a character that opens no group can be by itself. -/
theorem orElse_operand : orElse (literal A (c :: rest))
      (orElse (marker markers (c :: rest)) (unknown (c :: rest))) =
    match operand? A markers c with
    | some r => .ok ⟨r, rest, Nat.lt_succ_self _⟩
    | none =>
        if c ∉ operators then .error ⟨true, .unknownSymbol c, c :: rest⟩
        else refuse (c :: rest) := by
  rw [literal, marker, unknown, operand?]
  by_cases hsymbol : c ∉ operators ∧ c ∈ A
  · rw [if_pos hsymbol, if_pos hsymbol]
    rfl
  rw [if_neg hsymbol, if_neg hsymbol, orElse_refuse]
  by_cases hword : c = markers.emptyWord
  · rw [if_pos hword, if_pos hword]
    rfl
  rw [if_neg hword, if_neg hword]
  by_cases hlanguage : c = markers.emptyLanguage
  · rw [if_pos hlanguage, if_pos hlanguage]
    rfl
  rw [if_neg hlanguage, if_neg hlanguage, orElse_refuse]

theorem operand_follows (hopen : c ≠ '(') (hlength : (c :: rest).length ≤ total)
    (hterm : AtTerm g outer (c :: rest)) {term : Descent (c :: rest)}
    (h : orElse (literal A (c :: rest))
      (orElse (marker markers (c :: rest)) (unknown (c :: rest))) = term) :
    term = refuse (c :: rest) ∧ Halts A markers ['*', '+', ')'] (c :: rest) ∨
    Follows A markers total outer (TermRead g)
      (Reader.readRest A markers total ⟨g, outer⟩ (c :: rest)) term := by
  have hmove := hterm.moveOf_eq A markers hopen
  rw [orElse_operand] at h
  cases hoperand : operand? A markers c with
  | some r =>
      rw [hoperand] at h hmove
      subst h
      exact .inr (.ok rfl (Reader.readRest_cons_of_move (.operand r) hlength hmove))
  | none =>
      rw [hoperand] at h hmove
      dsimp only at h hmove
      split at h
      next hunknown =>
        rw [if_pos hunknown] at hmove
        subst h
        right
        have hfault : Stop.fault total outer ⟨true, .unknownSymbol c, c :: rest⟩ =
            ⟨.unknownSymbol c, total - (c :: rest).length⟩ := Stop.fault_eq (by simp)
        exact .error (hfault ▸ Reader.readRest_cons_of_error hmove)
      next hoperator =>
        refine .inl ⟨h.symm, ?_⟩
        intro d tail htext
        obtain ⟨rfl, rfl⟩ := List.cons.inj htext
        have hmem : c = ')' ∨ c = '*' ∨ c = '+' := by
          simpa only [operators, List.mem_cons, hopen, false_or, List.not_mem_nil, or_false]
            using Decidable.not_not.mp hoperator
        refine ⟨?_, hoperand⟩
        rcases hmem with rfl | rfl | rfl <;> decide

theorem term_follows (h : ∀ inner, text = '(' :: inner → UnionFollowed A markers inner)
    (hlength : text.length ≤ total) (hterm : AtTerm g outer text) :
    term A markers text = refuse text ∧ Halts A markers ['*', '+', ')'] text ∨
    Follows A markers total outer (TermRead g) (Reader.readRest A markers total ⟨g, outer⟩ text)
      (term A markers text) := by
  rw [term]
  rcases parenthesized_follows h hlength with ⟨hrefuse, hopen⟩ | hgroup
  · rw [hrefuse, orElse_refuse]
    cases text with
    | nil => exact .inl ⟨rfl, fun c rest h => absurd h.symm (List.cons_ne_nil c rest)⟩
    | cons c rest =>
        refine operand_follows ?_ hlength hterm rfl
        intro hc
        rw [hc, after?_eq_some.mpr rfl] at hopen
        cases hopen
  · right
    generalize parenthesized A markers text = group at hgroup
    cases hgroup with
    | ok hread hanswer => exact .ok hread hanswer
    | error hanswer => exact .error hanswer

/-- Where a term is due and refused, an operand is missing. -/
theorem readRest_of_refused (hterm : AtTerm g outer text) (hplace : g.place ≠ .after)
    (hhalts : Halts A markers ['*', '+', ')'] text)
    (hdue : text = [] → outer = [] → g.place = .due) :
    Reader.readRest A markers total ⟨g, outer⟩ text =
      .error (Stop.fault total outer ⟨true, .missingOperand, text⟩) := by
  cases text with
  | nil =>
      cases outer with
      | nil => exact if_pos (hdue rfl rfl)
      | cons => rfl
  | cons c rest =>
      obtain ⟨hmem, hoperand⟩ := hhalts c rest rfl
      have hc : c ≠ '(' ∧ c ∈ operators := by
        simp only [List.mem_cons, List.not_mem_nil, or_false] at hmem
        rcases hmem with rfl | rfl | rfl <;> decide
      have hmove := hterm.moveOf_eq A markers hc.1
      rw [hoperand] at hmove
      dsimp only at hmove
      rw [if_neg (Decidable.not_not.mpr hc.2), if_pos hplace] at hmove
      rw [Reader.readRest_cons_of_error hmove, Stop.fault_eq (by simp)]

theorem stars_follows (hlength : rest.length ≤ total) : after? '*' (stars r rest).2 = none ∧
    Reader.readRest A markers total ⟨g.push r, outer⟩ rest =
      Reader.readRest A markers total ⟨g.push (stars r rest).1, outer⟩ (stars r rest).2 := by
  induction rest generalizing r with
  | nil => exact ⟨rfl, rfl⟩
  | cons c rest ih =>
      rw [stars]
      split
      next hc =>
        subst hc
        have hmove : moveOf A markers (g.push r).place (!outer.isEmpty) '*' = .ok .star := by
          simp [moveOf, Group.place_push]
        obtain ⟨hnone, hstars⟩ := ih (r := star r) (Nat.le_of_succ_le hlength)
        refine ⟨hnone, Eq.trans ?_ hstars⟩
        rw [Reader.readRest_cons_of_move .star hlength hmove, ← Group.starLast_push]
        rfl
      next hc => exact ⟨if_neg hc, rfl⟩

theorem starred_follows (h : ∀ inner, text = '(' :: inner → UnionFollowed A markers inner)
    (hlength : text.length ≤ total) (hterm : AtTerm g outer text) :
    starred (term A markers text) = refuse text ∧ Halts A markers ['*', '+', ')'] text ∨
    Follows A markers total outer (StarredRead g) (Reader.readRest A markers total ⟨g, outer⟩ text)
      (starred (term A markers text)) := by
  rcases term_follows h hlength hterm with ⟨hrefuse, hhalts⟩ | hfollows
  · rw [hrefuse]
    exact .inl ⟨rfl, hhalts⟩
  · right
    generalize term A markers text = term at hfollows
    cases hfollows with
    | error hanswer => exact .error hanswer
    | @ok parsed _ hread hanswer =>
        obtain rfl := hread
        have hrest : parsed.rest.length ≤ total := Nat.le_trans (Nat.le_of_lt parsed.shorter) hlength
        obtain ⟨hnone, hstars⟩ := stars_follows hrest
        exact .ok ⟨rfl, hnone⟩ (hanswer.trans hstars)

/-! ## Concatenations and unions -/

section Loops

variable {left : Option (Regex Char)}

/-- The induction is on what is left of the pattern; each factor leaves less of it. -/
theorem factors_follows (before : Parsed text)
    (h : ∀ inner, inner.length < before.rest.length → UnionFollowed A markers inner)
    (hlength : before.rest.length ≤ total) (hg : Concatenated left before.value g)
    (hnone : after? '*' before.rest = none) :
    Follows A markers total outer (ConcatenationRead A markers left)
      (Reader.readRest A markers total ⟨g, outer⟩ before.rest) (factors A markers before) := by
  induction hk : before.rest.length using Nat.strongRecOn generalizing before g with
  | ind k ih =>
    subst hk
    obtain ⟨earlier, last, rfl, hvalue⟩ := hg
    have hterm : AtTerm ⟨left, earlier, some last⟩ outer before.rest :=
      ⟨fun _ => hnone, fun h => by cases h⟩
    have hinner : ∀ inner, before.rest = '(' :: inner → UnionFollowed A markers inner :=
      fun inner hrest => h inner (hrest ▸ Nat.lt_succ_self _)
    rw [factors]
    rcases starred_follows hinner hlength hterm with ⟨hrefuse, hhalts⟩ | hfollows
    · rw [hrefuse]
      exact .ok ⟨⟨earlier, last, rfl, hvalue⟩, hhalts.of_after? hnone⟩ rfl
    · generalize starred (term A markers before.rest) = factor at hfollows
      cases hfollows with
      | error hanswer => exact .error hanswer
      | @ok factor t hread hanswer =>
          obtain ⟨rfl, hnone⟩ := hread
          rw [hanswer]
          dsimp only
          refine ih factor.rest.length factor.shorter ⟨_, factor.rest, _⟩ ?_ ?_ ?_ hnone rfl
          · exact fun inner hinner => h inner (Nat.lt_trans hinner factor.shorter)
          · exact Nat.le_trans (Nat.le_of_lt factor.shorter) hlength
          · exact ⟨_, _, rfl, by rw [← hvalue]; rfl⟩

/-- A concatenation begins a group or an alternative. -/
theorem concatenation_follows (left : Option (Regex Char)) (outer : List (Nat × Group))
    (h : ∀ inner, inner.length < text.length → UnionFollowed A markers inner)
    (hlength : text.length ≤ total)
    (hempty : left = none → outer = [] → text ≠ [])
    (hclosed : left = none → outer ≠ [] → after? ')' text = none) :
    Follows A markers total outer (ConcatenationRead A markers left)
      (Reader.readRest A markers total ⟨{ alternatives := left }, outer⟩ text)
      (concatenation A markers text) := by
  have hplace : Group.place { alternatives := left } ≠ .after := by
    intro hafter
    cases left <;> cases hafter
  have hterm : AtTerm { alternatives := left } outer text := by
    refine ⟨fun h => absurd h hplace, ?_⟩
    intro hopening
    cases left with
    | none => exact hclosed rfl
    | some => cases hopening
  have hinner : ∀ inner, text = '(' :: inner → UnionFollowed A markers inner :=
    fun inner htext => h inner (htext ▸ Nat.lt_succ_self _)
  rw [concatenation]
  rcases starred_follows hinner hlength hterm with ⟨hrefuse, hhalts⟩ | hfollows
  · rw [hrefuse, refuse, cut]
    refine .error (readRest_of_refused hterm hplace hhalts ?_)
    intro htext houter
    cases left with
    | none => exact absurd htext (hempty rfl houter)
    | some => rfl
  · generalize starred (term A markers text) = first at hfollows
    cases hfollows with
    | error hanswer => exact .error hanswer
    | @ok first t hread hanswer =>
        obtain ⟨rfl, hnone⟩ := hread
        rw [hanswer]
        refine factors_follows first ?_ ?_ ⟨_, _, rfl, rfl⟩ hnone
        · exact fun inner hinner => h inner (Nat.lt_trans hinner first.shorter)
        · exact Nat.le_trans (Nat.le_of_lt first.shorter) hlength

/-- The induction is on what is left of the pattern; each alternative leaves less of it. -/
theorem alternatives_follows (before : Parsed text)
    (h : ∀ inner, inner.length < before.rest.length → UnionFollowed A markers inner)
    (hlength : before.rest.length ≤ total) (hplace : g.place = .after)
    (hvalue : g.value = before.value) (hhalts : Halts A markers ['+', ')'] before.rest) :
    Follows A markers total outer (UnionRead A markers)
      (Reader.readRest A markers total ⟨g, outer⟩ before.rest) (alternatives A markers before) := by
  induction hk : before.rest.length using Nat.strongRecOn generalizing before g with
  | ind k ih =>
    subst hk
    rw [alternatives]
    split
    next hplus => exact .ok ⟨hplace, hvalue, hhalts.of_after? hplus⟩ rfl
    next rest hplus =>
      have hrest : before.rest = '+' :: rest := after?_eq_some.mp hplus
      have hshort : rest.length < before.rest.length := length_after? hplus
      have hmove : moveOf A markers g.place (!outer.isEmpty) '+' = .ok .alternative := by
        simp [moveOf, hplace, (hhalts _ _ hrest).2, operators]
      have hread : Reader.readRest A markers total ⟨g, outer⟩ before.rest =
          Reader.readRest A markers total ⟨{ alternatives := some before.value }, outer⟩ rest := by
        rw [hrest, Reader.readRest_cons_of_move .alternative (hrest ▸ hlength) hmove, ← hvalue]
        rfl
      rw [hread]
      have hright := concatenation_follows (some before.value) outer
        (fun inner hinner => h inner (Nat.lt_trans hinner hshort))
        (Nat.le_trans (Nat.le_of_lt hshort) hlength)
        (fun h => absurd h (Option.some_ne_none _)) (fun h => absurd h (Option.some_ne_none _))
      generalize concatenation A markers rest = right at hright
      cases hright with
      | error hanswer => exact .error hanswer
      | @ok right t hread hanswer =>
          obtain ⟨⟨earlier, last, rfl, hjoined⟩, hhalts⟩ := hread
          have hlast : right.rest.length < before.rest.length := Nat.lt_trans right.shorter hshort
          rw [hanswer]
          dsimp only [cut]
          refine ih right.rest.length hlast ⟨_, right.rest, _⟩ ?_ ?_ rfl ?_ hhalts rfl
          · exact fun inner hinner => h inner (Nat.lt_trans hinner hlast)
          · exact Nat.le_trans (Nat.le_of_lt hlast) hlength
          · rw [← hjoined]
            rfl

end Loops

theorem union_follows (A : Alphabet Char) (markers : Markers) (text : List Char) :
    UnionFollowed A markers text := by
  induction hk : text.length using Nat.strongRecOn generalizing text with
  | ind k ih =>
    subst hk
    have h : ∀ inner : List Char, inner.length < text.length → UnionFollowed A markers inner :=
      fun inner hinner => ih inner.length hinner inner rfl
    intro outer total hlength hempty hclosed
    have hfirst := concatenation_follows none outer h hlength (fun _ => hempty) (fun _ => hclosed)
    rw [union]
    generalize concatenation A markers text = first at hfirst
    cases hfirst with
    | error hanswer => exact .error hanswer
    | @ok first t hread hanswer =>
        obtain ⟨⟨earlier, last, rfl, hvalue⟩, hhalts⟩ := hread
        rw [hanswer]
        refine alternatives_follows first ?_ ?_ rfl hvalue hhalts
        · exact fun inner hinner => h inner (Nat.lt_trans hinner first.shorter)
        · exact Nat.le_trans (Nat.le_of_lt first.shorter) hlength

end Descent

/-! ## Patterns -/

/-- Reading from left to right and reading by descent come to the same, expressions and faults, whatever
the markers. -/
theorem parseWith_eq_descend (A : Alphabet Char) (markers : Markers) (text : List Char) :
    parseWith A markers text = descend A markers text := by
  have hread : parseWith A markers text = Reader.readRest A markers text.length {} text := by
    rw [Reader.readRest, Nat.sub_self]
    rfl
  rw [hread, descend, Descent.pattern]
  by_cases htext : text = []
  · subst htext
    rfl
  rw [if_neg htext]
  have hunion := Descent.union_follows A markers text [] text.length (Nat.le_refl _)
    (fun _ => htext) (fun h => absurd rfl h)
  generalize Descent.union A markers text = parsed at hunion
  cases hunion with
  | error hanswer => rw [hanswer, Stop.fault_outermost]
  | @ok parsed t hunion hanswer =>
      rw [hanswer]
      dsimp only
      cases hrest : parsed.rest with
      | nil =>
          rw [if_pos rfl, Reader.readRest, Reader.read, Reader.finish]
          simp [hunion.place_eq, hunion.value_eq]
      | cons c rest =>
          obtain ⟨hc, hoperand⟩ := hunion.halts c rest hrest
          obtain rfl := List.mem_singleton.mp hc
          rw [if_neg (by simp)]
          exact Reader.readRest_cons_of_error
            (Descent.moveOf_afterUnion hunion.place_eq hoperand)

end LanguageTheory.Regex
