import LanguageTheory.NFA.Composition
import LanguageTheory.Proofs.NFA.Edges

/-!
# Languages of compositions

Product, union and star of automata over one alphabet always succeed, and their languages are the
product, the sum and the star of the operands' languages. That a composition has no other words is
shown by assigning to each of its states a language that is closed under going back along edges.
-/

namespace LanguageTheory.NFA

variable {α : Type} [TotalOrd α] {first second left right item n : NFA α}

open Draft

/-! ## Product -/

/-- The final states of the first operand lead to the copy of the second one. -/
structure IsProduct (n first second : NFA α) : Prop where
  alphabet_eq : n.alphabet = first.alphabet
  edge_iff : ∀ p label q, n.Edge p label q ↔ first.Edge p label q ∨
    Shifted first.states second.toDraft p label q ∨
      label = none ∧ p ∈ first.finals ∧ q = first.states
  mem_finals_iff : ∀ p, p ∈ n.finals ↔ ∃ q ∈ second.finals, p = first.states + q

theorem exists_concat (halphabet : second.alphabet = first.alphabet) :
    ∃ n, concat first second = .ok n ∧ n.IsProduct first second := by
  have hpos := second.states_pos
  have hempty : (empty first.alphabet).states = 0 := rfl
  obtain ⟨one, hone, honeA, honeN, honeF, honeE⟩ :=
    exists_splice (empty first.alphabet) first.toDraft rfl
  obtain ⟨two, htwo, htwoA, htwoN, htwoF, htwoE⟩ :=
    exists_splice one second.toDraft (halphabet.trans honeA.symm)
  rw [hempty, Nat.zero_add] at honeN
  rw [honeN] at htwoN
  obtain ⟨joined, hjoined, hjoinedX⟩ := exists_foldlM_extends
    (fun b final => b.addEpsilon final one.states) two first.finals.toList
    fun final hfinal c hc => by
      have hlt := first.finals_lt final hfinal
      exact exists_addEpsilon (by omega) (by omega)
  obtain ⟨marked, hmarked, hmarkedX⟩ := exists_foldlM_extends
    (fun b final => b.markFinal (one.states + final)) joined second.finals.toList
    fun final hfinal c hc => by
      have hlt := second.finals_lt final hfinal
      have hstates := hjoinedX.states_eq
      exact exists_markFinal (by omega)
  have hextends := hjoinedX.trans hmarkedX
  have hbuild : 0 < marked.states := by
    rw [hextends.states_eq]
    omega
  refine ⟨{ marked with states_pos := hbuild }, ?_, ?_, ?_, ?_⟩
  · simp only [concat, hone, htwo, hjoined, hmarked, bind, Except.bind, build, dif_pos hbuild]
  · exact hextends.alphabet_eq.trans (htwoA.trans honeA)
  · intro p label q
    rw [hextends.edge_iff, htwoE, honeE, honeN, hempty]
    simp [not_edge_empty, shifted_zero_iff, SortedSet.mem_toList, or_assoc]
  · intro p
    rw [hextends.mem_finals_iff, htwoF, honeF, honeN]
    simp [empty, SortedSet.mem_toList]

/-- What leads from each state of a product to its end. -/
def productFrom (first second : NFA α) (p : Nat) : Language α :=
  if p < first.states then first.languageFrom p * second.language
  else second.languageFrom (p - first.states)

theorem IsProduct.languageFrom_le (h : n.IsProduct first second) (p : Nat) :
    n.languageFrom p ≤ productFrom first second p := by
  apply Draft.languageFrom_le
  · intro q hq
    obtain ⟨q', hq', rfl⟩ := (h.mem_finals_iff q).mp hq
    rw [productFrom, if_neg (by omega), Nat.add_sub_cancel_left]
    exact ⟨q', hq', .nil⟩
  · intro p label q hpq w hw
    rcases (h.edge_iff p label q).mp hpq with hfirst | ⟨p', q', hsecond, rfl, rfl⟩ |
      ⟨rfl, hfinal, rfl⟩
    · rw [productFrom, if_pos hfirst.target_lt] at hw
      rw [productFrom, if_pos hfirst.source_lt]
      exact append_mem_languageFrom_mul hfirst hw
    · rw [productFrom, if_neg (by omega), Nat.add_sub_cancel_left] at hw ⊢
      exact append_mem_languageFrom_of_edge hsecond hw
    · -- the first operand has ended and the second one begins
      rw [productFrom, if_neg (Nat.lt_irrefl _), Nat.sub_self] at hw
      rw [productFrom, if_pos (first.finals_lt p hfinal)]
      exact mem_languageFrom_mul_of_final hfinal hw

/-- The words of a product are words of the first operand followed by words of the second one. -/
theorem IsProduct.language_eq (h : n.IsProduct first second) :
    n.language = first.language * second.language := by
  apply le_antisymm
  · have hle := h.languageFrom_le 0
    rwa [productFrom, if_pos first.states_pos] at hle
  · intro w hw
    obtain ⟨u, ⟨p, hp, hu⟩, v, ⟨q, hq, hv⟩, rfl⟩ := Language.mem_mul.mp hw
    have hfirst : n.Path 0 u p :=
      hu.map (f := id) fun _ _ _ hedge => (h.edge_iff _ _ _).mpr (.inl hedge)
    have hjoin : n.Edge p none first.states := (h.edge_iff _ _ _).mpr (.inr (.inr ⟨rfl, hp, rfl⟩))
    have hsecond : n.Path (first.states + 0) v (first.states + q) :=
      hv.map fun _ _ _ hedge => (h.edge_iff _ _ _).mpr (.inr (.inl ⟨_, _, hedge, rfl, rfl⟩))
    exact ⟨_, (h.mem_finals_iff _).mpr ⟨q, hq, rfl⟩, hfirst.append (.epsilon hjoin hsecond)⟩

/-! ## Sum -/

/-- State 0 leads to a copy, and the final states of the copy lead to an ending. -/
def Joins (operand : NFA α) (offset ending p q : Nat) : Prop :=
  p = 0 ∧ q = offset ∨ ∃ final ∈ operand.finals, p = offset + final ∧ q = ending

/-- A new initial state leads to both copies, and their final states to a new final state. -/
structure IsSum (n left right : NFA α) : Prop where
  alphabet_eq : n.alphabet = left.alphabet
  edge_iff : ∀ p label q, n.Edge p label q ↔ Shifted 1 left.toDraft p label q ∨
    Shifted (1 + left.states) right.toDraft p label q ∨ label = none ∧
      (Joins left 1 (1 + left.states + right.states) p q ∨
        Joins right (1 + left.states) (1 + left.states + right.states) p q)
  mem_finals_iff : ∀ p, p ∈ n.finals ↔ p = 1 + left.states + right.states

theorem exists_join (b : Draft α) (operand : NFA α) (offset ending : Nat)
    (hoffset : offset + operand.states ≤ b.states) (hending : ending < b.states) :
    ∃ entered c, b.addEpsilon 0 offset = .ok entered ∧
      operand.finals.toList.foldlM (fun b final => b.addEpsilon (offset + final) ending) entered =
        .ok c ∧ c.Extends b (Joins operand offset ending) (fun _ => False) := by
  have hpos := operand.states_pos
  obtain ⟨entered, hentered, henteredX⟩ :=
    exists_addEpsilon (b := b) (p := 0) (q := offset) (by omega) (by omega)
  obtain ⟨c, hc, hcX⟩ := exists_foldlM_extends
    (fun b final => b.addEpsilon (offset + final) ending) entered operand.finals.toList
    fun final hfinal d hd => by
      have hlt := operand.finals_lt final hfinal
      have hstates := henteredX.states_eq
      exact exists_addEpsilon (by omega) (by omega)
  refine ⟨entered, c, hentered, hc, ?_⟩
  have hextends := henteredX.trans hcX
  refine ⟨hextends.alphabet_eq, hextends.states_eq, hextends.edge_iff, ?_⟩
  intro p
  rw [hextends.mem_finals_iff]
  simp

theorem exists_union (halphabet : right.alphabet = left.alphabet) :
    ∃ n, union left right = .ok n ∧ n.IsSum left right := by
  have hempty : (empty left.alphabet).addState.states = 1 := rfl
  obtain ⟨one, hone, honeA, honeN, honeF, honeE⟩ :=
    exists_splice (empty left.alphabet).addState left.toDraft rfl
  obtain ⟨two, htwo, htwoA, htwoN, htwoF, htwoE⟩ :=
    exists_splice one right.toDraft (halphabet.trans honeA.symm)
  have hadded : two.addState.states = two.states + 1 := rfl
  rw [hempty] at honeN
  rw [honeN] at htwoN
  obtain ⟨enteredLeft, joinedLeft, henteredLeft, hjoinedLeft, hleftX⟩ :=
    exists_join two.addState left 1 two.states (by omega) (by omega)
  have hleftN := hleftX.states_eq
  obtain ⟨enteredRight, joined, henteredRight, hjoined, hrightX⟩ :=
    exists_join joinedLeft right one.states two.states (by omega) (by omega)
  have hrightN := hrightX.states_eq
  obtain ⟨marked, hmarked, hmarkedX⟩ :=
    exists_markFinal (b := joined) (p := two.states) (by omega)
  have hextends := (hleftX.trans hrightX).trans hmarkedX
  have hbuild : 0 < marked.states := by
    rw [hextends.states_eq]
    omega
  refine ⟨{ marked with states_pos := hbuild }, ?_, ?_, ?_, ?_⟩
  · simp only [union, hone, htwo, henteredLeft, hjoinedLeft, henteredRight, hjoined, hmarked, bind,
      Except.bind, build, dif_pos hbuild]
  · exact hextends.alphabet_eq.trans (htwoA.trans honeA)
  · intro p label q
    rw [hextends.edge_iff, edge_addState_iff, htwoE, honeE, edge_addState_iff, hempty, honeN, htwoN]
    simp [not_edge_empty, or_assoc]
  · intro p
    rw [hextends.mem_finals_iff, htwoN]
    have hnone : two.addState.finals = ∅ := htwoF.trans honeF
    simp [hnone]

/-- What leads from each state of a sum to its end. -/
def sumFrom (left right : NFA α) (p : Nat) : Language α :=
  if p = 0 then left.language + right.language
  else if p < 1 + left.states then left.languageFrom (p - 1)
  else if p < 1 + left.states + right.states then right.languageFrom (p - (1 + left.states))
  else 1

section SumFrom

variable {p : Nat}

theorem sumFrom_left (hp : p < left.states) : sumFrom left right (1 + p) = left.languageFrom p := by
  rw [sumFrom, if_neg (by omega), if_pos (by omega), Nat.add_sub_cancel_left]

theorem sumFrom_right (hp : p < right.states) :
    sumFrom left right (1 + left.states + p) = right.languageFrom p := by
  rw [sumFrom, if_neg (by omega), if_neg (by omega), if_pos (by omega), Nat.add_sub_cancel_left]

theorem sumFrom_ending : sumFrom left right (1 + left.states + right.states) = 1 := by
  rw [sumFrom, if_neg (by omega), if_neg (by omega), if_neg (Nat.lt_irrefl _)]

end SumFrom

theorem IsSum.languageFrom_le (h : n.IsSum left right) (p : Nat) :
    n.languageFrom p ≤ sumFrom left right p := by
  apply Draft.languageFrom_le
  · intro q hq
    rw [(h.mem_finals_iff q).mp hq, sumFrom_ending]
    exact Language.nil_mem_one
  · intro p label q hpq w hw
    rcases (h.edge_iff p label q).mp hpq with ⟨p', q', hleft, rfl, rfl⟩ |
      ⟨p', q', hright, rfl, rfl⟩ | ⟨rfl, hjoin⟩
    · rw [sumFrom_left hleft.target_lt] at hw
      rw [sumFrom_left hleft.source_lt]
      exact append_mem_languageFrom_of_edge hleft hw
    · rw [sumFrom_right hright.target_lt] at hw
      rw [sumFrom_right hright.source_lt]
      exact append_mem_languageFrom_of_edge hright hw
    · rcases hjoin with (⟨rfl, rfl⟩ | ⟨final, hfinal, rfl, rfl⟩) |
        (⟨rfl, rfl⟩ | ⟨final, hfinal, rfl, rfl⟩)
      · have hleft : sumFrom left right (1 + 0) = left.language := sumFrom_left left.states_pos
        rw [hleft] at hw
        exact .inl hw
      · rw [sumFrom_ending] at hw
        rw [sumFrom_left (left.finals_lt final hfinal), (Language.mem_one w).mp hw]
        exact ⟨final, hfinal, .nil⟩
      · have hright : sumFrom left right (1 + left.states + 0) = right.language :=
          sumFrom_right right.states_pos
        rw [Nat.add_zero] at hright
        rw [hright] at hw
        exact .inr hw
      · rw [sumFrom_ending] at hw
        rw [sumFrom_right (right.finals_lt final hfinal), (Language.mem_one w).mp hw]
        exact ⟨final, hfinal, .nil⟩

/-- A way through a copy that is joined in is a way from the initial state to the ending. -/
theorem path_of_joins {operand : NFA α} {offset ending : Nat} {w : List α}
    (hcopy : ∀ p label q, Shifted offset operand.toDraft p label q → n.Edge p label q)
    (hjoin : ∀ p q, Joins operand offset ending p q → n.Edge p none q)
    (hw : w ∈ operand.language) : n.Path 0 w ending := by
  obtain ⟨final, hfinal, hpath⟩ := hw
  have hinside : n.Path (offset + 0) w (offset + final) :=
    hpath.map fun _ _ _ hedge => hcopy _ _ _ ⟨_, _, hedge, rfl, rfl⟩
  have henter : n.Edge 0 none offset := hjoin _ _ (.inl ⟨rfl, rfl⟩)
  have hleave : n.Edge (offset + final) none ending := hjoin _ _ (.inr ⟨final, hfinal, rfl, rfl⟩)
  have hpath := (Path.epsilon henter hinside).append (.epsilon hleave .nil)
  rwa [List.append_nil] at hpath

/-- The words of a sum are those of both operands. -/
theorem IsSum.language_eq (h : n.IsSum left right) :
    n.language = left.language + right.language := by
  apply le_antisymm
  · exact h.languageFrom_le 0
  · intro w hw
    refine ⟨_, (h.mem_finals_iff _).mpr rfl, ?_⟩
    rcases hw with hleft | hright
    · apply path_of_joins (fun p label q hcopy => (h.edge_iff p label q).mpr (.inl hcopy)) _ hleft
      intro p q hjoin
      exact (h.edge_iff p none q).mpr (.inr (.inr ⟨rfl, .inl hjoin⟩))
    · apply path_of_joins (fun p label q hcopy => (h.edge_iff p label q).mpr (.inr (.inl hcopy))) _
        hright
      intro p q hjoin
      exact (h.edge_iff p none q).mpr (.inr (.inr ⟨rfl, .inr hjoin⟩))

/-! ## Star -/

/-- A new initial state leads to the copy and to a new final state, and the final states of the copy
lead back to the initial state and out. -/
structure IsStar (n item : NFA α) : Prop where
  alphabet_eq : n.alphabet = item.alphabet
  edge_iff : ∀ p label q, n.Edge p label q ↔ Shifted 1 item.toDraft p label q ∨ label = none ∧
    (p = 0 ∧ (q = 1 ∨ q = 1 + item.states) ∨
      ∃ final ∈ item.finals, p = 1 + final ∧ (q = 0 ∨ q = 1 + item.states))
  mem_finals_iff : ∀ p, p ∈ n.finals ↔ p = 1 + item.states

theorem exists_star (item : NFA α) : ∃ n, star item = .ok n ∧ n.IsStar item := by
  have hpos := item.states_pos
  have hempty : (empty item.alphabet).addState.states = 1 := rfl
  obtain ⟨copied, hcopied, hcopiedA, hcopiedN, hcopiedF, hcopiedE⟩ :=
    exists_splice (empty item.alphabet).addState item.toDraft rfl
  have hadded : copied.addState.states = copied.states + 1 := rfl
  rw [hempty] at hcopiedN
  obtain ⟨entered, hentered, henteredX⟩ :=
    exists_addEpsilon (b := copied.addState) (p := 0) (q := 1) (by omega) (by omega)
  have henteredN := henteredX.states_eq
  obtain ⟨skipped, hskipped, hskippedX⟩ :=
    exists_addEpsilon (b := entered) (p := 0) (q := copied.states) (by omega) (by omega)
  have hskippedN := hskippedX.states_eq
  obtain ⟨joined, hjoined, hjoinedX⟩ := exists_foldlM_extends
    (fun b final => do
      let back ← b.addEpsilon (1 + final) 0
      back.addEpsilon (1 + final) copied.states) skipped item.finals.toList
    fun final hfinal c hc => by
      have hlt := item.finals_lt final hfinal
      obtain ⟨back, hback, hbackX⟩ :=
        exists_addEpsilon (b := c) (p := 1 + final) (q := 0) (by omega) (by omega)
      have hbackN := hbackX.states_eq
      obtain ⟨out, hout, houtX⟩ :=
        exists_addEpsilon (b := back) (p := 1 + final) (q := copied.states) (by omega) (by omega)
      refine ⟨out, ?_, hbackX.trans houtX⟩
      rw [hback]
      exact hout
  have hjoinedN := hjoinedX.states_eq
  obtain ⟨marked, hmarked, hmarkedX⟩ :=
    exists_markFinal (b := joined) (p := copied.states) (by omega)
  have hextends := ((henteredX.trans hskippedX).trans hjoinedX).trans hmarkedX
  have hbuild : 0 < marked.states := by
    rw [hextends.states_eq]
    omega
  refine ⟨{ marked with states_pos := hbuild }, ?_, ?_, ?_, ?_⟩
  · simp only [bind, Except.bind] at hjoined
    simp only [star, hcopied, hentered, hskipped, hjoined, hmarked, bind, Except.bind, build,
      dif_pos hbuild]
  · exact hextends.alphabet_eq.trans hcopiedA
  · intro p label q
    rw [hextends.edge_iff, edge_addState_iff, hcopiedE, edge_addState_iff, hempty, hcopiedN]
    simp only [not_edge_empty, false_or, or_false, SortedSet.mem_toList, ← and_or_left]
  · intro p
    rw [hextends.mem_finals_iff, hcopiedN]
    have hnone : copied.addState.finals = ∅ := hcopiedF
    simp [hnone]

/-- What leads from each state of a star to its end. -/
def starFrom (item : NFA α) (p : Nat) : Language α :=
  if p = 0 then KStar.kstar item.language
  else if p < 1 + item.states then item.languageFrom (p - 1) * KStar.kstar item.language
  else 1

section StarFrom

variable {p : Nat}

theorem starFrom_copy (hp : p < item.states) :
    starFrom item (1 + p) = item.languageFrom p * KStar.kstar item.language := by
  rw [starFrom, if_neg (by omega), if_pos (by omega), Nat.add_sub_cancel_left]

theorem starFrom_ending : starFrom item (1 + item.states) = 1 := by
  rw [starFrom, if_neg (by omega), if_neg (Nat.lt_irrefl _)]

end StarFrom

theorem IsStar.languageFrom_le (h : n.IsStar item) (p : Nat) :
    n.languageFrom p ≤ starFrom item p := by
  have hone : (1 : Language α) ≤ KStar.kstar item.language := one_le_kstar
  apply Draft.languageFrom_le
  · intro q hq
    rw [(h.mem_finals_iff q).mp hq, starFrom_ending]
    exact Language.nil_mem_one
  · intro p label q hpq w hw
    rcases (h.edge_iff p label q).mp hpq with ⟨p', q', hcopy, rfl, rfl⟩ |
      ⟨rfl, ⟨rfl, rfl | rfl⟩ | ⟨final, hfinal, rfl, rfl | rfl⟩⟩
    · rw [starFrom_copy hcopy.target_lt] at hw
      rw [starFrom_copy hcopy.source_lt]
      exact append_mem_languageFrom_mul hcopy hw
    · -- one more word of the operand is begun
      have hentry := starFrom_copy item.states_pos
      rw [Nat.add_zero] at hentry
      rw [hentry] at hw
      have hle : item.language * KStar.kstar item.language ≤ KStar.kstar item.language :=
        mul_kstar_le_kstar
      exact hle hw
    · -- the copy is passed by
      rw [starFrom_ending] at hw
      exact hone hw
    · -- a word of the operand has ended and more may follow
      rw [starFrom_copy (item.finals_lt final hfinal)]
      exact mem_languageFrom_mul_of_final hfinal hw
    · rw [starFrom_ending] at hw
      rw [starFrom_copy (item.finals_lt final hfinal)]
      exact mem_languageFrom_mul_of_final hfinal (hone hw)

/-- The words of a star are any number of words of the operand in a row. -/
theorem IsStar.language_eq (h : n.IsStar item) : n.language = KStar.kstar item.language := by
  apply le_antisymm
  · exact h.languageFrom_le 0
  · intro w hw
    refine ⟨_, (h.mem_finals_iff _).mpr rfl, ?_⟩
    obtain ⟨words, rfl, hwords⟩ := Language.mem_kstar.mp hw
    clear hw
    have hskip : n.Edge 0 none (1 + item.states) :=
      (h.edge_iff _ _ _).mpr (.inr ⟨rfl, .inl ⟨rfl, .inr rfl⟩⟩)
    have henter : n.Edge 0 none 1 := (h.edge_iff _ _ _).mpr (.inr ⟨rfl, .inl ⟨rfl, .inl rfl⟩⟩)
    induction words with
    | nil => exact .epsilon hskip .nil
    | cons u words ih =>
        obtain ⟨final, hfinal, hu⟩ := hwords u List.mem_cons_self
        have hinside : n.Path (1 + 0) u (1 + final) :=
          hu.map fun _ _ _ hedge => (h.edge_iff _ _ _).mpr (.inl ⟨_, _, hedge, rfl, rfl⟩)
        have hback : n.Edge (1 + final) none 0 :=
          (h.edge_iff _ _ _).mpr (.inr ⟨rfl, .inr ⟨final, hfinal, rfl, .inl rfl⟩⟩)
        have hrest := ih fun v hv => hwords v (List.mem_cons_of_mem u hv)
        exact (Path.epsilon henter hinside).append (.epsilon hback hrest)

end LanguageTheory.NFA
