import LanguageTheory.Grammar.ChomskyForm
import LanguageTheory.Proofs.Grammar.Yields

/-!
# Words in normal form

Making productions binary keeps the words of the old variables (`yields_binary_iff`), provided that
the names of the helpers are new and different. Every helper has a meaning in the old grammar: a
terminal, or what is left of a production behind a position. A form with helpers has the words of
the form in which each helper is replaced by its meaning.
-/

namespace LanguageTheory.Grammar

variable {g : Grammar} {p q : Production} {name : Helper → Char} {u v w : List Char} {c : Char}

/-- The names of the helpers are no symbols of the grammar, and no two helpers share one. -/
structure Fresh (g : Grammar) (name : Helper → Char) : Prop where
  not_terminal : ∀ helper ∈ g.helpers, name helper ∉ g.terminals
  not_variable : ∀ helper ∈ g.helpers, name helper ∉ g.vars
  injective : ∀ helper ∈ g.helpers, ∀ other ∈ g.helpers, name helper = name other → helper = other

theorem terminal_mem_helpersOf_iff : .terminal c ∈ g.helpersOf p ↔
    2 ≤ p.rhs.length ∧ c ∈ p.rhs ∧ c ∉ g.vars := by
  unfold helpersOf
  split
  next hshort => simp [Nat.not_le.mpr hshort]
  next hlong => simp [Nat.not_lt.mp hlong]

theorem link_mem_helpersOf_iff {position : Nat} : .link q position ∈ g.helpersOf p ↔
    q = p ∧ position + 2 < p.rhs.length := by
  unfold helpersOf
  split
  next hshort =>
    refine iff_of_false List.not_mem_nil ?_
    rintro ⟨_, hposition⟩
    omega
  next =>
    simp only [List.mem_append, List.mem_map, reduceCtorEq, and_false, exists_false, false_or,
      List.mem_range, Helper.link.injEq, Nat.lt_sub_iff_add_lt]
    constructor
    · rintro ⟨i, hi, rfl, rfl⟩
      exact ⟨rfl, hi⟩
    · rintro ⟨rfl, hposition⟩
      exact ⟨position, hposition, rfl, rfl⟩

/-- Helpers stand for terminals only. -/
theorem mem_terminals_of_mem_helpers (hc : .terminal c ∈ g.helpers) : c ∈ g.terminals := by
  obtain ⟨p, hp, hhelper⟩ := mem_helpers.mp hc
  obtain ⟨_, hmem, hvar⟩ := terminal_mem_helpersOf_iff.mp hhelper
  exact (g.rhs_mem p hp c hmem).resolve_left hvar

/-! ## Meanings -/

/-- What a helper stands for. -/
def Helper.meaning : Helper → List Char
  | .terminal c => [c]
  | .link p position => p.rhs.drop (position + 1)

/-- What a symbol stands for: an old symbol for itself, a name for what its helper stands for. -/
def meaning (g : Grammar) (name : Helper → Char) (c : Char) : List Char :=
  match g.helpers.toList.find? fun helper => name helper = c with
  | some helper => helper.meaning
  | none => [c]

theorem meaning_name (hname : g.Fresh name) {helper : Helper} (hhelper : helper ∈ g.helpers) :
    g.meaning name (name helper) = helper.meaning := by
  unfold meaning
  split
  next other hfind =>
    have hother : other ∈ g.helpers := List.mem_of_find?_eq_some hfind
    have hsame : name other = name helper := by simpa using List.find?_some hfind
    rw [hname.injective other hother helper hhelper hsame]
  next hfind =>
    have hdiffer := List.find?_eq_none.mp hfind helper hhelper
    simp at hdiffer

theorem meaning_eq_self (h : ∀ helper ∈ g.helpers, name helper ≠ c) : g.meaning name c = [c] := by
  unfold meaning
  split
  next helper hfind =>
    have hhelper : helper ∈ g.helpers := List.mem_of_find?_eq_some hfind
    exact absurd (by simpa using List.find?_some hfind) (h helper hhelper)
  next => rfl

theorem meaning_symbol (hname : g.Fresh name) (hc : c ∈ g.vars ∨ c ∈ g.terminals) :
    g.meaning name c = [c] := by
  apply meaning_eq_self
  intro helper hhelper hsame
  rcases hc with hvar | hterminal
  · exact hname.not_variable helper hhelper (hsame ▸ hvar)
  · exact hname.not_terminal helper hhelper (hsame ▸ hterminal)

theorem flatMap_meaning (hname : g.Fresh name) (hu : ∀ c ∈ u, c ∈ g.vars ∨ c ∈ g.terminals) :
    u.flatMap (g.meaning name) = u := by
  induction u with
  | nil => rfl
  | cons c u ih =>
      have hhead := meaning_symbol hname (hu c List.mem_cons_self)
      have htail := ih fun d hd => hu d (List.mem_cons_of_mem c hd)
      rw [List.flatMap_cons, hhead, htail, List.singleton_append]

theorem meaning_standIn (hname : g.Fresh name) (hp : p ∈ g.productions)
    (hlong : 2 ≤ p.rhs.length) (hc : c ∈ p.rhs) : g.meaning name (g.standIn name c) = [c] := by
  unfold standIn
  split
  next hvar => exact meaning_symbol hname (.inl hvar)
  next hvar => exact meaning_name hname (terminal_mem_helpers hp hlong hc hvar)

theorem flatMap_meaning_standIn (hname : g.Fresh name) (hp : p ∈ g.productions)
    (hlong : 2 ≤ p.rhs.length) (hu : ∀ c ∈ u, c ∈ p.rhs) :
    (u.map (g.standIn name)).flatMap (g.meaning name) = u := by
  induction u with
  | nil => rfl
  | cons c u ih =>
      have hhead := meaning_standIn hname hp hlong (hu c List.mem_cons_self)
      have htail := ih fun d hd => hu d (List.mem_cons_of_mem c hd)
      rw [List.map_cons, List.flatMap_cons, hhead, htail, List.singleton_append]

/-! ## Chains -/

/-- The end of a chain has two symbols at most. -/
theorem length_le_two {symbols : List Char}
    (hend : ∀ first second third rest, symbols = first :: second :: third :: rest → False) :
    symbols.length ≤ 2 := by
  rcases symbols with _ | ⟨first, _ | ⟨second, _ | ⟨third, rest⟩⟩⟩
  · exact Nat.zero_le 2
  · exact Nat.le_succ 1
  · exact Nat.le_refl 2
  · exact absurd rfl (hend first second third rest)

/-- A chain whose links stand for what is left of its symbols keeps what its heads stand for. -/
theorem mem_chain_meaning {m : Char → List Char} {link : Nat → Char} {head : Char} {position : Nat}
    {symbols : List Char} (hq : q ∈ chain link head position symbols)
    (hlink : ∀ i, i + 2 < symbols.length →
      m (link (position + i)) = (symbols.drop (i + 1)).flatMap m) :
    (q.lhs = head ∧ q.rhs.flatMap m = symbols.flatMap m) ∨
      ∃ i, i + 2 < symbols.length ∧ q.lhs = link (position + i) ∧
        q.rhs.flatMap m = (symbols.drop (i + 1)).flatMap m := by
  fun_induction chain link head position symbols with
  | case1 head position first second third rest ih =>
      have hlength : (first :: second :: third :: rest).length = rest.length + 3 := rfl
      have hfirst : m (link position) = (second :: third :: rest).flatMap m :=
        hlink 0 (by omega)
      rcases List.mem_cons.mp hq with rfl | hq
      · refine .inl ⟨rfl, ?_⟩
        simp only [List.flatMap_cons, List.flatMap_nil, List.append_nil, hfirst]
      · -- the links of the tail are the links from the next position on
        have hrest : ∀ i, i + 2 < (second :: third :: rest).length →
            m (link (position + 1 + i)) = ((second :: third :: rest).drop (i + 1)).flatMap m := by
          intro i hi
          have hnext := hlink (i + 1) (by simpa using hi)
          rwa [← Nat.add_assoc, Nat.add_right_comm] at hnext
        right
        rcases ih hq hrest with ⟨hlhs, hrhs⟩ | ⟨i, hi, hlhs, hrhs⟩
        · exact ⟨0, by omega, hlhs, hrhs⟩
        · refine ⟨i + 1, by simpa using hi, ?_, hrhs⟩
          rw [hlhs, Nat.add_assoc, Nat.add_comm 1 i]
  | case2 =>
      rw [List.mem_singleton.mp hq]
      exact .inl ⟨rfl, rfl⟩

/-- The head of a chain has the words of its symbols. -/
theorem Yields.of_chain {h : Grammar} {link : Nat → Char} {head : Char} {position : Nat}
    {symbols : List Char} (hchain : ∀ q ∈ chain link head position symbols, q ∈ h.productions)
    (hword : h.Yields symbols w) : h.Yields [head] w := by
  fun_induction chain link head position symbols generalizing w with
  | case1 head position first second third rest ih =>
      simp only [List.forall_mem_cons] at hchain
      obtain ⟨hfirst, hrest⟩ := hchain
      obtain ⟨start, others, rfl, hstart, hothers⟩ := Yields.split (u := [first]) hword
      exact .of_production hfirst (hstart.append (ih hrest hothers))
  | case2 head position symbols =>
      exact .of_production (hchain _ (List.mem_singleton_self _)) hword

/-- The first production that comes of an old one stands for it, the others for what is left of it.
-/
theorem mem_binarize_meaning (hname : g.Fresh name) (hp : p ∈ g.productions)
    (hq : q ∈ g.binarize name p) :
    (q.lhs = p.lhs ∧ q.rhs.flatMap (g.meaning name) = p.rhs) ∨
      ∃ i, i + 2 < p.rhs.length ∧ q.lhs = name (.link p i) ∧
        q.rhs.flatMap (g.meaning name) = p.rhs.drop (i + 1) := by
  unfold binarize at hq
  split at hq
  next =>
    obtain rfl := List.mem_singleton.mp hq
    exact .inl ⟨rfl, flatMap_meaning hname (g.rhs_mem q hp)⟩
  next hshort =>
    have hlong : 2 ≤ p.rhs.length := Nat.not_lt.mp hshort
    have hdrop : ∀ i, ((p.rhs.map (g.standIn name)).drop i).flatMap (g.meaning name) =
        p.rhs.drop i := by
      intro i
      rw [← List.map_drop]
      exact flatMap_meaning_standIn hname hp hlong fun c hc => List.mem_of_mem_drop hc
    have hlink : ∀ i, i + 2 < (p.rhs.map (g.standIn name)).length →
        g.meaning name (name (.link p (0 + i))) =
          ((p.rhs.map (g.standIn name)).drop (i + 1)).flatMap (g.meaning name) := by
      intro i hi
      rw [List.length_map] at hi
      rw [hdrop, Nat.zero_add, meaning_name hname (link_mem_helpers hp hi), Helper.meaning]
    rcases mem_chain_meaning hq hlink with ⟨hhead, hrhs⟩ | ⟨i, hi, hhead, hrhs⟩
    · have hsymbols := hdrop 0
      rw [List.drop_zero, List.drop_zero] at hsymbols
      exact .inl ⟨hhead, hrhs.trans hsymbols⟩
    · rw [List.length_map] at hi
      rw [Nat.zero_add] at hhead
      exact .inr ⟨i, hi, hhead, hrhs.trans (hdrop (i + 1))⟩

/-! ## Words -/

section Binary

variable {hterminal : ∀ helper ∈ g.helpers, name helper ∉ g.terminals} {acceptsEmpty : Bool}

theorem Yields.meaning_of_production (hname : g.Fresh name) (hq : q ∈ g.binaryProductions name)
    (h : g.Yields (q.rhs.flatMap (g.meaning name)) w) : g.Yields (g.meaning name q.lhs) w := by
  rcases mem_binaryProductions.mp hq with ⟨p, hp, hbinary⟩ | ⟨c, hc, rfl⟩
  · -- the first production of a chain stands for the old one, the others say nothing new
    rcases mem_binarize_meaning hname hp hbinary with ⟨hhead, hrhs⟩ | ⟨i, hi, hhead, hrhs⟩
    · rw [hrhs] at h
      rw [hhead, meaning_symbol hname (.inl (g.lhs_mem p hp))]
      exact .of_production hp h
    · rw [hhead, meaning_name hname (link_mem_helpers hp hi), Helper.meaning, ← hrhs]
      exact h
  · have hmeaning : g.meaning name (name (.terminal c)) = [c] := meaning_name hname hc
    have hsymbol : g.meaning name c = [c] :=
      meaning_symbol hname (.inr (mem_terminals_of_mem_helpers hc))
    rw [hmeaning]
    simpa [hsymbol] using h

/-- A word of a form with helpers is one of what the form stands for. -/
theorem Yields.of_binary (hname : g.Fresh name)
    (h : (g.binary name hterminal acceptsEmpty).Yields u w) :
    g.Yields (u.flatMap (g.meaning name)) w := by
  induction h with
  | nil => exact .nil
  | terminal hc _ ih =>
      rw [List.flatMap_cons, meaning_symbol hname (.inr hc)]
      exact .terminal hc ih
  | production hp _ _ ihrhs ihrest =>
      rw [List.flatMap_cons]
      exact (Yields.meaning_of_production hname hp ihrhs).append ihrest

theorem Yields.map_standIn (hp : p ∈ g.productions) (hlong : 2 ≤ p.rhs.length)
    (hu : ∀ c ∈ u, c ∈ p.rhs) (h : (g.binary name hterminal acceptsEmpty).Yields u w) :
    (g.binary name hterminal acceptsEmpty).Yields (u.map (g.standIn name)) w := by
  induction u generalizing w with
  | nil => exact h
  | cons c u ih =>
      obtain ⟨first, rest, rfl, hfirst, hrest⟩ := Yields.split (u := [c]) h
      have htail := ih (fun d hd => hu d (List.mem_cons_of_mem c hd)) hrest
      suffices hhead : (g.binary name hterminal acceptsEmpty).Yields [g.standIn name c] first from
        hhead.append htail
      unfold standIn
      split
      next => exact hfirst
      next hvar =>
        have hhelper := terminal_mem_helpers hp hlong (hu c List.mem_cons_self) hvar
        have hproduction : ⟨name (.terminal c), [c]⟩ ∈ g.binaryProductions name :=
          mem_binaryProductions.mpr (.inr ⟨c, hhelper, rfl⟩)
        exact .of_production hproduction hfirst

theorem Yields.binary (h : g.Yields u w) :
    (g.binary name hterminal acceptsEmpty).Yields u w := by
  induction h with
  | nil => exact .nil
  | terminal hc _ ih => exact .terminal hc ih
  | @production c rhs rest v w hp _ _ ihrhs ihrest =>
      have hmem : ∀ q ∈ g.binarize name ⟨c, rhs⟩, q ∈ g.binaryProductions name := by
        intro q hq
        exact mem_binaryProductions.mpr (.inl ⟨⟨c, rhs⟩, hp, hq⟩)
      suffices hhead : (g.binary name hterminal acceptsEmpty).Yields [c] v from hhead.append ihrest
      unfold binarize at hmem
      split at hmem
      next => exact .of_production (hmem _ (List.mem_singleton_self _)) ihrhs
      next hshort =>
        have hlong : 2 ≤ rhs.length := Nat.not_lt.mp hshort
        exact .of_chain hmem (.map_standIn hp hlong (fun d hd => hd) ihrhs)

/-- In normal form the old variables have the words they had. -/
theorem yields_binary_iff (hname : g.Fresh name) (hc : c ∈ g.vars) :
    (g.binary name hterminal acceptsEmpty).Yields [c] w ↔ g.Yields [c] w := by
  constructor
  · intro h
    have hword := h.of_binary hname
    rwa [List.flatMap_cons, meaning_symbol hname (.inl hc), List.flatMap_nil,
      List.append_nil] at hword
  · exact Yields.binary

end Binary

end LanguageTheory.Grammar
