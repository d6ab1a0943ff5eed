import LanguageTheory.Proofs.Regex.Descent
import LanguageTheory.Proofs.Regex.Parentheses

/-!
# Where the fault of a pattern is

A reader that has come through a text can always be brought to an end (`Reader.Reached.viable`). So
the character that makes it stop is the first one that no pattern has there, and what the reader
keeps says which fault that is. A reader that comes through the whole pattern ends with a fault if a
parenthesis is open (`Reader.Reached.openAt`) or an operand is due.
-/

namespace LanguageTheory.Regex

variable {A : Alphabet Char} {markers : Markers} {text rest pattern : List Char} {c : Char}
  {fault : SyntaxFault}

/-- The pattern is read. -/
def Accepted (A : Alphabet Char) (markers : Markers) (pattern : List Char) : Prop :=
  ∃ r, parseWith A markers pattern = .ok r

/-- Some continuation of the text is read. -/
def Viable (A : Alphabet Char) (markers : Markers) (text : List Char) : Prop :=
  ∃ rest, Accepted A markers (text ++ rest)

/-- The fault of a pattern of which no more than the first `q` characters are viable. -/
inductive FirstFault (A : Alphabet Char) (markers : Markers) (pattern : List Char) (q : Nat) :
    SyntaxFault → Prop
  | unknownSymbol {c : Char} : pattern[q]? = some c → c ∉ operators →
      FirstFault A markers pattern q ⟨.unknownSymbol c, q⟩
  | unopenedParenthesis : pattern[q]? = some ')' →
      pattern.take q ≠ [] ∧ Accepted A markers (pattern.take q) →
      FirstFault A markers pattern q ⟨.unbalancedParenthesis, q⟩
  | missingOperand {c : Char} : pattern[q]? = some c → c ∈ operators →
      ¬ (c = ')' ∧ pattern.take q ≠ [] ∧ Accepted A markers (pattern.take q)) →
      FirstFault A markers pattern q ⟨.missingOperand, q⟩
  | unclosedParenthesis {i : Nat} : q = pattern.length → IsGreatest {j | Unmatched pattern j} i →
      FirstFault A markers pattern q ⟨.unbalancedParenthesis, i⟩
  | missingLastOperand : q = pattern.length → (∀ j, ¬ Unmatched pattern j) →
      FirstFault A markers pattern q ⟨.missingOperand, pattern.length⟩

/-! ## Readers without a fault -/

theorem Group.place_push_ne_due {g : Group} {r : Regex Char} : (g.push r).place ≠ .due := by
  rw [place_push]
  decide

namespace Reader

variable {s t : Reader} {g : Group} {outer : List (Nat × Group)} {position : Nat}

/-- The reader after a text that it comes through without a fault. -/
inductive Reached (A : Alphabet Char) (markers : Markers) : Reader → List Char → Prop
  | start : Reached A markers {} []
  | step {s t : Reader} {text : List Char} {c : Char} : Reached A markers s text →
      s.step A markers text.length c = .ok t → Reached A markers t (text ++ [c])

/-- A reader comes through every pattern, or there is a first character that stops it. -/
theorem reached_or_fault (A : Alphabet Char) (markers : Markers) (pattern : List Char) :
    (∃ s, Reached A markers s pattern) ∨ ∃ text c rest s fault,
      pattern = text ++ c :: rest ∧ Reached A markers s text ∧
      s.step A markers text.length c = .error fault := by
  induction pattern using List.reverseRecOn with
  | nil => exact .inl ⟨{}, .start⟩
  | append_singleton pattern c ih =>
      rcases ih with ⟨s, hreached⟩ | ⟨text, d, rest, s, fault, rfl, hreached, hfault⟩
      · cases hstep : s.step A markers pattern.length c with
        | ok t => exact .inl ⟨t, hreached.step hstep⟩
        | error fault => exact .inr ⟨pattern, c, [], s, fault, rfl, hreached, hstep⟩
      · exact .inr ⟨text, d, rest ++ [c], s, fault, by simp, hreached, hfault⟩

/-- Where no operand is due the group can be ended, and then the groups around it. -/
theorem exists_read_eq_ok (hmarkers : markers.Plain) (hplace : g.place ≠ .due) (position : Nat) :
    ∃ rest r, read A markers ⟨g, outer⟩ position rest = .ok r := by
  induction outer generalizing g position with
  | nil => exact ⟨[], g.value, by simp [read, finish, hplace]⟩
  | cons opened outer ih =>
      obtain ⟨opened, around⟩ := opened
      obtain ⟨rest, r, hread⟩ := ih Group.place_push_ne_due (position + 1)
      exact ⟨')' :: rest, r, (reads_closeParenthesis hmarkers hplace rest).trans hread⟩

namespace Reached

theorem parseWith_append (h : Reached A markers s text) (rest : List Char) :
    parseWith A markers (text ++ rest) = s.read A markers text.length rest := by
  induction h generalizing rest with
  | start => rfl
  | @step s t text c _ hstep ih =>
      rw [List.append_assoc, ih, List.length_append]
      simp [read, hstep]

theorem parseWith_eq_finish (h : Reached A markers s text) :
    parseWith A markers text = s.finish text.length := by
  have hread := h.parseWith_append []
  rwa [List.append_nil] at hread

/-- What stops a reader stops it in whatever pattern goes on with that character. -/
theorem parseWith_eq_error (h : Reached A markers s text)
    (hfault : s.step A markers text.length c = .error fault) (rest : List Char) :
    parseWith A markers (text ++ c :: rest) = .error fault := by
  rw [h.parseWith_append]
  simp [read, hfault]

theorem not_viable (h : Reached A markers s text)
    (hfault : s.step A markers text.length c = .error fault) (rest : List Char) :
    ¬ Viable A markers (text ++ c :: rest) := by
  intro hviable
  obtain ⟨after, r, hread⟩ := hviable
  rw [List.append_assoc, List.cons_append, h.parseWith_eq_error hfault] at hread
  cases hread

theorem eq_of_nil (h : Reached A markers s []) : s = {} := by
  generalize hnil : [] = text at h
  cases h with
  | start => rfl
  | step => simp at hnil

theorem accepted_iff (h : Reached A markers s text) :
    Accepted A markers text ↔ s.outer = [] ∧ s.group.place ≠ .due := by
  unfold Accepted
  rw [h.parseWith_eq_finish, finish]
  cases houter : s.outer with
  | nil => by_cases hplace : s.group.place = .due <;> simp [hplace]
  | cons => simp

variable (hmarkers : markers.Plain)
include hmarkers

theorem spelt (h : Reached A markers s text) : s.Spelt A markers text := by
  induction h with
  | start => exact .outermost .empty
  | step _ hstep ih => exact ih.step hmarkers hstep

/-- A reader stands after an operand and outside of all groups exactly when its text could end
there as a pattern with something in it. -/
theorem place_eq_after_iff (h : Reached A markers s text) :
    s.outer = [] ∧ s.group.place = .after ↔ text ≠ [] ∧ Accepted A markers text := by
  rw [h.accepted_iff]
  refine ⟨?_, ?_⟩
  · intro ⟨houter, hplace⟩
    refine ⟨?_, houter, by rw [hplace]; decide⟩
    intro htext
    subst htext
    rw [h.eq_of_nil] at hplace
    cases hplace
  · intro ⟨htext, houter, hdue⟩
    have hspelt := h.spelt hmarkers
    obtain ⟨group, outer⟩ := s
    obtain rfl : outer = [] := houter
    cases hspelt with
    | outermost hgroup =>
        cases hplace : group.place with
        | opening => exact absurd (hgroup.eq_of_opening hplace).1 htext
        | due => exact absurd hplace hdue
        | after => exact ⟨rfl, rfl⟩

/-- A text that a reader comes through can be completed. -/
theorem viable (h : Reached A markers s text) : Viable A markers text := by
  by_cases hplace : s.group.place = .due
  · -- an empty group is an operand that is due
    obtain ⟨rest, r, hread⟩ :=
      exists_read_eq_ok hmarkers Group.place_push_ne_due (text.length + 2)
    have hgroup : Reads A markers s text.length ['(', ')'] ⟨s.group.push emptyWord, s.outer⟩ :=
      (Spells.effect hmarkers .emptyGroup : Category.Effect A markers .term _ _) s.group s.outer _
    exact ⟨['(', ')'] ++ rest, r, (h.parseWith_append _).trans ((hgroup rest).trans hread)⟩
  · obtain ⟨rest, r, hread⟩ := exists_read_eq_ok hmarkers hplace text.length
    exact ⟨rest, r, (h.parseWith_append rest).trans hread⟩

/-- The reader keeps the positions of the unmatched parentheses. -/
theorem openAt (h : Reached A markers s text) : OpenAt (s.outer.map Prod.fst) text := by
  induction h with
  | start => exact .none .nil
  | @step s t text c _ hstep ih =>
      unfold Reader.step at hstep
      split at hstep
      next move hmove =>
        cases hstep
        have hallowed := (moveOf_eq_ok_iff hmarkers).mp hmove
        cases move with
        | openGroup =>
            obtain rfl : c = '(' := hallowed
            exact ih.openParenthesis
        | closeGroup =>
            obtain ⟨rfl, hinside, -⟩ := hallowed
            obtain ⟨group, outer⟩ := s
            cases outer with
            | nil => cases hinside
            | cons => exact ih.closeParenthesis
        | alternative =>
            obtain ⟨rfl, -⟩ := hallowed
            exact ih.balanced (.singleton (by decide) (by decide))
        | star =>
            obtain ⟨rfl, -⟩ := hallowed
            exact ih.balanced (.singleton (by decide) (by decide))
        | operand r =>
            obtain ⟨hopen, hclose, -⟩ := not_mem_operators_iff.mp
              (not_mem_operators_of_operand? hmarkers ((spells_singleton_iff hmarkers).mp hallowed))
            exact ih.balanced (.singleton hopen hclose)
      next => cases hstep

/-- The character that stops a reader is the first one that cannot stand there. -/
theorem isGreatest_viable (h : Reached A markers s text)
    (hfault : s.step A markers text.length c = .error fault) (rest : List Char) :
    IsGreatest {k | k ≤ (text ++ c :: rest).length ∧ Viable A markers ((text ++ c :: rest).take k)}
      text.length := by
  refine ⟨⟨by simp, ?_⟩, ?_⟩
  · rw [List.take_left]
    exact h.viable hmarkers
  · intro k ⟨_, hviable⟩
    by_contra hlt
    obtain ⟨k, rfl⟩ := Nat.exists_eq_add_of_lt (Nat.lt_of_not_le hlt)
    rw [Nat.add_assoc, List.take_length_add_append, List.take_succ_cons] at hviable
    exact h.not_viable hfault _ hviable

theorem firstFault_of_step (h : Reached A markers s text)
    (hfault : s.step A markers text.length c = .error fault) (rest : List Char) :
    FirstFault A markers (text ++ c :: rest) text.length fault := by
  have hnext : (text ++ c :: rest)[text.length]? = some c := by simp
  have htake : (text ++ c :: rest).take text.length = text := List.take_left
  have houter : (!s.outer.isEmpty) = false ↔ s.outer = [] := by simp
  unfold Reader.step at hfault
  split at hfault
  next => cases hfault
  next kind hkind =>
    cases hfault
    have hcases := moveOf_eq_error hmarkers hkind
    rw [houter, h.place_eq_after_iff hmarkers] at hcases
    rcases hcases with ⟨hc, rfl⟩ | ⟨⟨rfl, hread⟩, rfl⟩ | ⟨⟨hc, hread⟩, rfl⟩
    · exact .unknownSymbol hnext hc
    · exact .unopenedParenthesis hnext (htake.symm ▸ hread)
    · exact .missingOperand hnext hc (htake.symm ▸ hread)

/-- A reader at the end of a pattern lacks a parenthesis or an operand. -/
theorem firstFault_of_finish (h : Reached A markers s pattern)
    (hfault : s.finish pattern.length = .error fault) :
    FirstFault A markers pattern pattern.length fault := by
  have hopen := h.openAt hmarkers
  unfold Reader.finish at hfault
  split at hfault
  next houter =>
    cases hfault
    rw [houter] at hopen
    exact .unclosedParenthesis rfl hopen.isGreatest
  next houter =>
    rw [houter] at hopen
    split at hfault
    next =>
      cases hfault
      exact .missingLastOperand rfl fun j hj => List.not_mem_nil (hopen.mem_iff.mpr hj)
    next => cases hfault

end Reached

end Reader

/-! ## Patterns with a fault -/

/-- A pattern that is not read has its fault at the first character no pattern has there, of the
kind that the character and what precedes it make; if there is no such character, at the last
parenthesis that is not closed, or at the end where an operand is missing. The descent, which passes
faults on through groups and changes some on the way, comes to the same fault. -/
theorem exists_firstFault (hmarkers : markers.Plain)
    (hfault : parseWith A markers pattern = .error fault) :
    descend A markers pattern = .error fault ∧
    ∃ q, IsGreatest {k | k ≤ pattern.length ∧ Viable A markers (pattern.take k)} q ∧
      FirstFault A markers pattern q fault := by
  refine ⟨(parseWith_eq_descend A markers pattern).symm.trans hfault, ?_⟩
  rcases Reader.reached_or_fault A markers pattern with
    ⟨s, hreached⟩ | ⟨text, c, rest, s, found, rfl, hreached, hstep⟩
  · refine ⟨pattern.length, ⟨⟨Nat.le_refl _, ?_⟩, fun k hk => hk.1⟩, ?_⟩
    · rw [List.take_length]
      exact hreached.viable hmarkers
    · rw [hreached.parseWith_eq_finish] at hfault
      exact hreached.firstFault_of_finish hmarkers hfault
  · rw [hreached.parseWith_eq_error hstep] at hfault
    obtain rfl : found = fault := Except.error.inj hfault
    exact ⟨text.length, hreached.isGreatest_viable hmarkers hstep rest,
      hreached.firstFault_of_step hmarkers hstep rest⟩

/-- All of the pattern is viable, and the last parenthesis that it leaves open is at fault. -/
theorem exists_firstFault_nested : Markers.Plain {} ∧
    parseWith (.ofList ['a', 'b']) {} ['(', 'a', '(', 'b', ')', '(', 'a', '+'] =
      .error ⟨.unbalancedParenthesis, 5⟩ ∧
    descend (.ofList ['a', 'b']) {} ['(', 'a', '(', 'b', ')', '(', 'a', '+'] =
      .error ⟨.unbalancedParenthesis, 5⟩ ∧
    IsGreatest {k | k ≤ 8 ∧ Viable (.ofList ['a', 'b']) {}
      (['(', 'a', '(', 'b', ')', '(', 'a', '+'].take k)} 8 ∧
    IsGreatest {j | Unmatched ['(', 'a', '(', 'b', ')', '(', 'a', '+'] j} 5 := by
  have hfault : parseWith (.ofList ['a', 'b']) {} ['(', 'a', '(', 'b', ')', '(', 'a', '+'] =
      .error ⟨.unbalancedParenthesis, 5⟩ := rfl
  obtain ⟨hdescend, q, hlongest, hfirst⟩ := exists_firstFault plain_default hfault
  cases hfirst with
  | unopenedParenthesis hnext => cases hnext
  | unclosedParenthesis hall hlast =>
      subst hall
      exact ⟨plain_default, hfault, hdescend, hlongest, hlast⟩

end LanguageTheory.Regex
