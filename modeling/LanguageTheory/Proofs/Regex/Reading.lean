import LanguageTheory.Proofs.Regex.Moves

/-!
# Reading follows the notation

A reader goes through a text and keeps what it has read of each open group. What it keeps spells
the text so far, and every character keeps it so (`Reader.Spelt.step`). Conversely a text that
spells an expression adds just that to what a reader keeps (`Spells.effect`). So the patterns that
are read are those of the notation, each with its one expression.
-/

namespace LanguageTheory.Regex

variable {A : Alphabet Char} {markers : Markers} {text rest : List Char} {r : Regex Char}
  {c : Char} {move : Move} {position : Nat}

/-! ## From the notation to the reader -/

namespace Group

variable {g : Group}

theorem place_push (g : Group) (r : Regex Char) : (g.push r).place = .after := by
  cases hlast : g.last <;> simp [push, place, hlast]

theorem starLast_push (g : Group) (r : Regex Char) : (g.push r).starLast = g.push (star r) := by
  cases hlast : g.last <;> simp [push, starLast, hlast]

end Group

namespace Reader

variable {s t u : Reader} {g around : Group} {outer : List (Nat × Group)}

/-- A text takes one reader to another, whatever follows. -/
def Reads (A : Alphabet Char) (markers : Markers) (s : Reader) (position : Nat)
    (text : List Char) (t : Reader) : Prop :=
  ∀ rest, s.read A markers position (text ++ rest) =
    t.read A markers (position + text.length) rest

theorem Reads.append (hfirst : s.Reads A markers position text t)
    (hsecond : t.Reads A markers (position + text.length) rest u) :
    s.Reads A markers position (text ++ rest) u := by
  intro after
  rw [List.append_assoc, hfirst, hsecond, List.length_append, Nat.add_assoc]

variable (hmarkers : markers.Plain)
include hmarkers

theorem reads_of_allowed (move : Move)
    (h : move.Allowed A markers g.place (!outer.isEmpty) c) :
    Reads A markers ⟨g, outer⟩ position [c] (apply ⟨g, outer⟩ position move) := by
  intro rest
  have hmove := (moveOf_eq_ok_iff hmarkers).mpr h
  simp [read, step, hmove]

theorem reads_openParenthesis :
    Reads A markers ⟨g, outer⟩ position ['('] ⟨{}, (position, g) :: outer⟩ :=
  reads_of_allowed hmarkers .openGroup rfl

theorem reads_closeParenthesis {opened : Nat} (hplace : g.place ≠ .due) :
    Reads A markers ⟨g, (opened, around) :: outer⟩ position [')']
      ⟨around.push g.value, outer⟩ :=
  reads_of_allowed hmarkers .closeGroup ⟨rfl, rfl, hplace⟩

/-- What is read of a group becomes one operand around it. -/
theorem reads_parenthesized {inner : Group} (hplace : inner.place ≠ .due)
    (hinner : ∀ outer position, Reads A markers ⟨{}, outer⟩ position text ⟨inner, outer⟩) :
    Reads A markers ⟨g, outer⟩ position ('(' :: text ++ [')']) ⟨g.push inner.value, outer⟩ := by
  have hopen : Reads A markers ⟨g, outer⟩ position ['('] ⟨{}, (position, g) :: outer⟩ :=
    reads_openParenthesis hmarkers
  exact (hopen.append (hinner _ _)).append (reads_closeParenthesis hmarkers hplace)

theorem reads_asterisk :
    Reads A markers ⟨g.push r, outer⟩ position ['*'] ⟨g.push (star r), outer⟩ := by
  rw [← Group.starLast_push]
  exact reads_of_allowed hmarkers .star ⟨rfl, Group.place_push g r⟩

theorem reads_plus (hplace : g.place = .after) :
    Reads A markers ⟨g, outer⟩ position ['+'] ⟨g.alternative, outer⟩ :=
  reads_of_allowed hmarkers .alternative ⟨rfl, hplace⟩

theorem reads_operand (h : Spells A markers .term [c] r) :
    Reads A markers ⟨g, outer⟩ position [c] ⟨g.push r, outer⟩ :=
  reads_of_allowed hmarkers (.operand r) h

end Reader

/-- What a text of a category does to a reader. A term, starred or not, is one more operand of the
group; a concatenation makes up an alternative, and a union makes up a group. -/
def Category.Effect (A : Alphabet Char) (markers : Markers) :
    Category → List Char → Regex Char → Prop
  | term, text, r | starred, text, r => ∀ group outer position,
      Reader.Reads A markers ⟨group, outer⟩ position text ⟨group.push r, outer⟩
  | concat, text, r => ∃ factors last, Group.joined Regex.concat factors last = r ∧
      ∀ alternatives outer position, Reader.Reads A markers ⟨{ alternatives }, outer⟩ position text
        ⟨⟨alternatives, factors, some last⟩, outer⟩
  | union, text, r => ∃ alternatives factors last,
      Group.value ⟨alternatives, factors, some last⟩ = r ∧
      ∀ outer position, Reader.Reads A markers ⟨{}, outer⟩ position text
        ⟨⟨alternatives, factors, some last⟩, outer⟩

/-- A text has the effect of its category. -/
theorem Spells.effect {category : Category} (hmarkers : markers.Plain)
    (h : Spells A markers category text r) : category.Effect A markers text r := by
  induction h with
  | symbol hoperator hmem =>
      intro group outer position
      exact Reader.reads_operand hmarkers (.symbol hoperator hmem)
  | emptyWord hoperator hmem =>
      intro group outer position
      exact Reader.reads_operand hmarkers (.emptyWord hoperator hmem)
  | emptyLanguage hoperator hmem hne =>
      intro group outer position
      exact Reader.reads_operand hmarkers (.emptyLanguage hoperator hmem hne)
  | emptyGroup =>
      intro group outer position
      have hinner : ∀ outer position,
          Reader.Reads A markers ⟨{}, outer⟩ position [] ⟨{}, outer⟩ := fun _ _ _ => rfl
      exact Reader.reads_parenthesized hmarkers (by decide) hinner
  | group _ ih =>
      obtain ⟨alternatives, factors, last, rfl, hinner⟩ := ih
      intro group outer position
      exact Reader.reads_parenthesized hmarkers (fun h => by cases h) hinner
  | ofTerm _ ih => exact ih
  | star _ ih =>
      intro group outer position
      exact (ih group outer position).append (Reader.reads_asterisk hmarkers)
  | ofStarred _ ih => exact ⟨none, _, rfl, fun alternatives => ih { alternatives }⟩
  | concat _ _ ihfirst ihsecond =>
      -- what was last is joined to the factors when the next term is pushed
      obtain ⟨factors, last, rfl, hfirst⟩ := ihfirst
      refine ⟨some (Group.joined .concat factors last), _, rfl, ?_⟩
      intro alternatives outer position
      exact (hfirst alternatives outer position).append (ihsecond _ _ _)
  | ofConcat _ ih =>
      obtain ⟨factors, last, rfl, hreads⟩ := ih
      exact ⟨none, factors, last, rfl, hreads none⟩
  | union _ _ ihleft ihright =>
      -- the plus joins all that was read to the alternatives, and the right side begins anew
      obtain ⟨alternatives, factors, last, rfl, hleft⟩ := ihleft
      obtain ⟨factors', last', rfl, hright⟩ := ihright
      refine ⟨some (Group.value ⟨alternatives, factors, some last⟩), factors', last', rfl, ?_⟩
      intro outer position
      have hplus := (hleft outer position).append (Reader.reads_plus hmarkers rfl)
      have hboth := hplus.append (hright _ _ _)
      rwa [List.append_assoc] at hboth

/-! ## From the reader to the notation -/

/-- The text before the last alternative of a group. -/
inductive Alternatives (A : Alphabet Char) (markers : Markers) :
    Option (Regex Char) → List Char → Prop
  | none : Alternatives A markers none []
  | some {text : List Char} {r : Regex Char} :
      Spells A markers .union text r → Alternatives A markers (some r) (text ++ ['+'])

/-- The text of the last alternative before its last factor. -/
inductive Factors (A : Alphabet Char) (markers : Markers) :
    Option (Regex Char) → List Char → Prop
  | none : Factors A markers none []
  | some {text : List Char} {r : Regex Char} :
      Spells A markers .concat text r → Factors A markers (some r) text

variable {before : Option (Regex Char)}

theorem Factors.spells_joined (hbefore : Factors A markers before text)
    (hlast : Spells A markers .starred rest r) :
    Spells A markers .concat (text ++ rest) (Group.joined .concat before r) := by
  cases hbefore with
  | none => exact .ofStarred hlast
  | some h => exact .concat h hlast

theorem Alternatives.spells_joined (hbefore : Alternatives A markers before text)
    (hlast : Spells A markers .concat rest r) :
    Spells A markers .union (text ++ rest) (Group.joined .union before r) := by
  cases hbefore with
  | none => exact .ofConcat hlast
  | some h =>
      rw [List.append_assoc]
      exact .union h hlast

namespace Group

variable {g : Group}

/-- The text of an open group: an alternative has not begun yet, or it has a last factor. -/
inductive Spelt (A : Alphabet Char) (markers : Markers) : Group → List Char → Prop
  | begun {alternatives : Option (Regex Char)} {text : List Char} :
      Alternatives A markers alternatives text → Spelt A markers { alternatives } text
  | after {alternatives factors : Option (Regex Char)} {last : Regex Char}
      {earlier text rest : List Char} :
      Alternatives A markers alternatives earlier → Factors A markers factors text →
      Spells A markers .starred rest last →
      Spelt A markers ⟨alternatives, factors, some last⟩ (earlier ++ (text ++ rest))

namespace Spelt

theorem empty : Spelt A markers {} [] := .begun .none

/-- After an operand, the text of a group spells its value. -/
theorem spells_value (h : g.Spelt A markers text) (hplace : g.place = .after) :
    Spells A markers .union text g.value := by
  cases h with
  | begun h => cases h <;> cases hplace
  | after halternatives hfactors hlast =>
      exact halternatives.spells_joined (hfactors.spells_joined hlast)

theorem eq_of_opening (h : g.Spelt A markers text) (hplace : g.place = .opening) :
    text = [] ∧ g.value = emptyWord := by
  cases h with
  | begun h =>
      cases h with
      | none => exact ⟨rfl, rfl⟩
      | some => cases hplace
  | after => cases hplace

theorem push (h : g.Spelt A markers text) (hr : Spells A markers .starred rest r) :
    (g.push r).Spelt A markers (text ++ rest) := by
  cases h with
  | begun halternatives => exact .after halternatives .none hr
  | after halternatives hfactors hlast =>
      rw [List.append_assoc]
      exact .after halternatives (.some (hfactors.spells_joined hlast)) hr

theorem starLast (h : g.Spelt A markers text) (hplace : g.place = .after) :
    g.starLast.Spelt A markers (text ++ ['*']) := by
  cases h with
  | begun h => cases h <;> cases hplace
  | after halternatives hfactors hlast =>
      rw [List.append_assoc, List.append_assoc]
      exact .after halternatives hfactors (.star hlast)

theorem alternative (h : g.Spelt A markers text) (hplace : g.place = .after) :
    g.alternative.Spelt A markers (text ++ ['+']) :=
  .begun (.some (h.spells_value hplace))

/-- A closed group is a term. -/
theorem spells_group (h : g.Spelt A markers text) (hplace : g.place ≠ .due) :
    Spells A markers .term ('(' :: text ++ [')']) g.value := by
  cases hgroup : g.place with
  | opening =>
      obtain ⟨rfl, hvalue⟩ := h.eq_of_opening hgroup
      rw [hvalue]
      exact .emptyGroup
  | due => exact absurd hgroup hplace
  | after => exact .group (h.spells_value hgroup)

end Spelt

end Group

namespace Reader

variable {s t : Reader} {g : Group} {outer : List (Nat × Group)}

/-- The text that a reader has gone through, group by group. -/
inductive Spelt (A : Alphabet Char) (markers : Markers) : Reader → List Char → Prop
  | outermost {group : Group} {text : List Char} :
      group.Spelt A markers text → Spelt A markers ⟨group, []⟩ text
  | inner {around group : Group} {outer : List (Nat × Group)} {opened : Nat}
      {text rest : List Char} :
      Spelt A markers ⟨around, outer⟩ text → group.Spelt A markers rest →
      Spelt A markers ⟨group, (opened, around) :: outer⟩ (text ++ '(' :: rest)

namespace Spelt

/-- What goes on with the innermost group goes on with the reader. -/
theorem group {next : Group} (h : Spelt A markers ⟨g, outer⟩ text)
    (hnext : ∀ inner, g.Spelt A markers inner → next.Spelt A markers (inner ++ rest)) :
    Spelt A markers ⟨next, outer⟩ (text ++ rest) := by
  cases h with
  | outermost hgroup => exact .outermost (hnext _ hgroup)
  | inner haround hgroup =>
      rw [List.append_assoc]
      exact .inner haround (hnext _ hgroup)

/-- A move that is allowed keeps the reader with the text. -/
theorem apply (h : s.Spelt A markers text)
    (hallowed : move.Allowed A markers s.group.place (!s.outer.isEmpty) c) :
    (s.apply position move).Spelt A markers (text ++ [c]) := by
  cases move with
  | openGroup =>
      obtain rfl : c = '(' := hallowed
      exact .inner h .empty
  | closeGroup =>
      obtain ⟨rfl, hinside, hplace⟩ := hallowed
      cases h with
      | outermost => cases hinside
      | inner haround hgroup =>
          have hterm := Spells.ofTerm (hgroup.spells_group hplace)
          rw [List.append_assoc]
          exact haround.group fun _ hinner => hinner.push hterm
  | alternative =>
      obtain ⟨rfl, hplace⟩ := hallowed
      exact h.group fun _ hinner => hinner.alternative hplace
  | star =>
      obtain ⟨rfl, hplace⟩ := hallowed
      exact h.group fun _ hinner => hinner.starLast hplace
  | operand r => exact h.group fun _ hinner => hinner.push (.ofTerm hallowed)

theorem step (hmarkers : markers.Plain) (h : s.Spelt A markers text)
    (hstep : s.step A markers position c = .ok t) : t.Spelt A markers (text ++ [c]) := by
  unfold Reader.step at hstep
  split at hstep
  next move hmove =>
    cases hstep
    exact h.apply ((moveOf_eq_ok_iff hmarkers).mp hmove)
  next => cases hstep

/-- A reader ends with the expression of its text, or with no text at all. -/
theorem finish (h : s.Spelt A markers text) (hfinish : s.finish position = .ok r) :
    text = [] ∧ r = emptyWord ∨ Spells A markers .union text r := by
  cases h with
  | inner => cases hfinish
  | @outermost group _ hgroup =>
      unfold Reader.finish at hfinish
      cases hplace : group.place with
      | opening =>
          obtain ⟨rfl, hvalue⟩ := hgroup.eq_of_opening hplace
          simp only [hplace, reduceCtorEq, if_false, Except.ok.injEq] at hfinish
          exact .inl ⟨rfl, hfinish ▸ hvalue⟩
      | due => simp [hplace] at hfinish
      | after =>
          simp only [hplace, reduceCtorEq, if_false, Except.ok.injEq] at hfinish
          exact .inr (hfinish ▸ hgroup.spells_value hplace)

/-- Whatever is read from a reader on spells what is read in the end. -/
theorem read (hmarkers : markers.Plain) (h : s.Spelt A markers text)
    (hread : s.read A markers position rest = .ok r) :
    text ++ rest = [] ∧ r = emptyWord ∨ Spells A markers .union (text ++ rest) r := by
  induction rest generalizing s text position with
  | nil =>
      rw [List.append_nil]
      exact h.finish hread
  | cons c rest ih =>
      unfold Reader.read at hread
      split at hread
      next t hstep =>
        have hrest := ih (h.step hmarkers hstep) hread
        rwa [List.append_assoc] at hrest
      next => cases hread

end Spelt

end Reader

/-! ## Patterns -/

/-- The patterns that are read are those of the notation, and the empty one. -/
theorem parseWith_eq_ok_iff (hmarkers : markers.Plain) : parseWith A markers text = .ok r ↔
    text = [] ∧ r = emptyWord ∨ Spells A markers .union text r := by
  constructor
  · exact (Reader.Spelt.outermost .empty).read hmarkers
  · rintro (⟨rfl, rfl⟩ | h)
    · rfl
    · obtain ⟨alternatives, factors, last, rfl, hreads⟩ := h.effect hmarkers
      have hread := hreads [] 0 []
      rw [List.append_nil] at hread
      exact hread

theorem Spells.unique {s : Regex Char} (hmarkers : markers.Plain)
    (hr : Spells A markers .union text r) (hs : Spells A markers .union text s) : r = s := by
  have hread := (parseWith_eq_ok_iff hmarkers).mpr (.inr hr)
  rw [(parseWith_eq_ok_iff hmarkers).mpr (.inr hs)] at hread
  exact (Except.ok.inj hread).symm

/-- Reading is exact: with markers that are no operators, a pattern is read exactly if it is empty
or spells an expression as a union, and that expression, the only one it spells, is the result. -/
theorem parseWith_exact (hmarkers : markers.Plain) (A : Alphabet Char) (pattern : List Char) :
    (∀ r, parseWith A markers pattern = .ok r ↔
      pattern = [] ∧ r = emptyWord ∨ Spells A markers .union pattern r) ∧
    ∀ r s, Spells A markers .union pattern r → Spells A markers .union pattern s → r = s :=
  ⟨fun _ => parseWith_eq_ok_iff hmarkers, fun _ _ hr hs => hr.unique hmarkers hs⟩

/-- The marker `e` is a symbol of the alphabet, so that it is no marker; `0` is one. -/
theorem parseWith_exact_overlap : Markers.Plain ⟨'e', '0'⟩ ∧
    ∀ r, Spells (.ofList ['a', 'e']) ⟨'e', '0'⟩ .union
        ['a', '(', 'e', '+', '0', ')', '*', '*', '(', ')'] r ↔
      r = concat (concat (symbol 'a') (star (star (union (symbol 'e') emptyLanguage))))
        emptyWord := by
  have hmarkers : Markers.Plain ⟨'e', '0'⟩ := ⟨by decide, by decide⟩
  obtain ⟨hread, hunique⟩ := parseWith_exact hmarkers (.ofList ['a', 'e'])
    ['a', '(', 'e', '+', '0', ')', '*', '*', '(', ')']
  have hspells := ((hread (concat (concat (symbol 'a')
    (star (star (union (symbol 'e') emptyLanguage)))) emptyWord)).mp rfl).resolve_left (by simp)
  refine ⟨hmarkers, ?_⟩
  intro r
  constructor
  · intro hr
    exact hunique r _ hr hspells
  · rintro rfl
    exact hspells

end LanguageTheory.Regex
