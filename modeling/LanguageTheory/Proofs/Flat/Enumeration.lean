import LanguageTheory.Proofs.Alphabet
import LanguageTheory.Proofs.Flat.Checked
import LanguageTheory.Proofs.Grammar.Enumeration

/-!
# Enumeration with a queue

Forms wait in a queue, the first that came first, each with the depth at which it was met. A form is
marked as seen when it is queued, so it is met once. The queue passes from the new forms of one layer
to those of the next (`drain?_layer`), and so every form within the limit is met at its least depth
(`drain?_layers`). The words found are put in order in the end, and are those of the library
(`produce?_eq`).
-/

namespace LanguageTheory

namespace SortedSet

variable {α : Type} [TotalOrd α] {s : SortedSet α} {l m : List α} {a : α}

theorem union_ofList_nil : s ∪ .ofList [] = s := ext (by simp)

theorem union_ofList_append : s ∪ .ofList l ∪ .ofList m = s ∪ .ofList (l ++ m) :=
  ext (by simp [or_assoc])

theorem insert_union_ofList : insert a s ∪ .ofList l = s ∪ .ofList (a :: l) :=
  ext (by simp [or_left_comm, or_assoc])

theorem union_ofList_cons_of_mem (ha : a ∈ s) : s ∪ .ofList (a :: l) = s ∪ .ofList l := by
  apply ext
  simp only [mem_union, mem_ofList, List.mem_cons]
  grind

end SortedSet

namespace Grammar

/-! ## Rules -/

/-- The right-hand sides of every variable. -/
abbrev Rules := Std.TreeMap Char (List (List Char))

/-- Adds a production to those of its variable. -/
def Rules.add (rules : Rules) (p : Production) : Rules :=
  rules.alter p.lhs fun known => some (known.getD [] ++ [p.rhs])

/-- The right-hand sides of every variable, in the order of the productions. -/
def rulesByVariable (g : Grammar) : Rules := g.productions.toList.foldl .add ∅

/-- The forms that the rules make of the variable at a place, which must be there. -/
def replaceAt? (g : Grammar) (form : List Char) (place : Nat) : Option (List (List Char)) := do
  let c ← form[place]?
  return (g.rulesByVariable[c]?.getD []).map fun rhs =>
    form.take place ++ rhs ++ form.drop (place + 1)

variable {g : Grammar} {form : List Char} {place : Nat}

theorem getD_foldl_add (l : List Production) (rules : Rules) (c : Char) :
    (l.foldl Rules.add rules)[c]?.getD [] =
      rules[c]?.getD [] ++ (l.filter fun p => p.lhs = c).map Production.rhs := by
  induction l generalizing rules with
  | nil => simp
  | cons p l ih =>
      rw [List.foldl_cons, ih, Rules.add, Std.TreeMap.getElem?_alter]
      by_cases hp : p.lhs = c <;> simp [hp]

theorem getD_rulesByVariable (g : Grammar) (c : Char) :
    g.rulesByVariable[c]?.getD [] = (g.productionsOf c).map Production.rhs :=
  (getD_foldl_add _ ∅ c).trans (by simp [productionsOf])

theorem splitAtVariable_eq (g : Grammar) (form : List Char) : g.splitAtVariable form =
    (form.findIdx? (· ∈ g.vars)).bind fun place =>
      form[place]?.map fun c => (form.take place, c, form.drop (place + 1)) := by
  induction form with
  | nil => rfl
  | cons c form ih =>
      by_cases hc : c ∈ g.vars
      · simp [splitAtVariable, List.findIdx?_cons, hc]
      · rw [splitAtVariable, if_neg hc, ih]
        cases hplace : form.findIdx? (· ∈ g.vars) <;>
          simp [List.findIdx?_cons, hc, hplace, Function.comp_def]

theorem leftmostSuccessors_eq_nil (hnone : form.findIdx? (· ∈ g.vars) = none) :
    g.leftmostSuccessors form = [] := by
  rw [leftmostSuccessors, splitAtVariable_eq, hnone]
  rfl

theorem replaceAt?_eq_some (hplace : form.findIdx? (· ∈ g.vars) = some place) :
    g.replaceAt? form place = some (g.leftmostSuccessors form) := by
  have hlt : place < form.length := (List.findIdx?_eq_some_iff_getElem.mp hplace).1
  simp [replaceAt?, leftmostSuccessors, splitAtVariable_eq, hplace, hlt, getD_rulesByVariable]

theorem length_le_of_replaceAt? {forms : List (List Char)}
    (hforms : g.replaceAt? form place = some forms) : forms.length ≤ g.productions.toList.length := by
  unfold replaceAt? at hforms
  simp only [Option.bind_eq_bind, Option.bind_eq_some_iff] at hforms
  obtain ⟨c, _, hforms⟩ := hforms
  cases hforms
  rw [List.length_map, getD_rulesByVariable, List.length_map]
  exact List.length_filter_le _ _

/-! ## The queue -/

/-- A form that waits, at a depth within the limit. -/
structure QueuedForm (limit : Nat) where
  form : List Char
  depth : Nat
  depth_le : depth ≤ limit

/-- An enumeration in its course: the words found, the forms seen, and those that wait. -/
structure Enumerating (limit : Nat) where
  produced : SortedSet (List Char)
  seen : SortedSet (List Char)
  queue : List (QueuedForm limit)

namespace Enumerating

variable {limit : Nat}

/-- A form that has not been seen is queued. -/
def meet (depth : Nat) (hdepth : depth ≤ limit) (e : Enumerating limit) (form : List Char) :
    Enumerating limit :=
  if form ∈ e.seen then e
  else { e with seen := insert form e.seen, queue := e.queue ++ [⟨form, depth, hdepth⟩] }

/-- What is still to be done at most, when a form leads to no more than `width` others. -/
def remaining (width : Nat) (e : Enumerating limit) : Nat :=
  (e.queue.map fun waiting => (width + 1) ^ (limit - waiting.depth)).sum

theorem remaining_foldl_meet_le {width depth : Nat} {hdepth : depth ≤ limit}
    {e : Enumerating limit} (l : List (List Char)) :
    (l.foldl (meet depth hdepth) e).remaining width ≤
      e.remaining width + l.length * (width + 1) ^ (limit - depth) := by
  induction l generalizing e with
  | nil => simp
  | cons a l ih =>
      have hmeet : (e.meet depth hdepth a).remaining width ≤
          e.remaining width + (width + 1) ^ (limit - depth) := by
        unfold meet
        split <;> simp [remaining]
      rw [List.foldl_cons, List.length_cons, Nat.succ_mul]
      have hrest := ih (e := e.meet depth hdepth a)
      omega

/-- A form leaves more to be done than all that it leads to. -/
theorem remaining_follow_lt {width depth : Nat} {hdepth : depth ≤ limit}
    {hnext : depth + 1 ≤ limit} {produced seen : SortedSet (List Char)}
    {queue : List (QueuedForm limit)} {form : List Char} {l : List (List Char)}
    (hl : l.length ≤ width) :
    (l.foldl (meet (depth + 1) hnext) ⟨produced, seen, queue⟩).remaining width <
      remaining width ⟨produced, seen, ⟨form, depth, hdepth⟩ :: queue⟩ := by
  have hstep : limit - depth = limit - (depth + 1) + 1 := by omega
  have hpos : 0 < (width + 1) ^ (limit - (depth + 1)) := Nat.pow_pos (Nat.succ_pos width)
  have hforms : l.length * (width + 1) ^ (limit - (depth + 1)) < (width + 1) ^ (limit - depth) := by
    calc l.length * (width + 1) ^ (limit - (depth + 1))
        ≤ width * (width + 1) ^ (limit - (depth + 1)) := Nat.mul_le_mul_right _ hl
      _ < (width + 1) * (width + 1) ^ (limit - (depth + 1)) :=
          Nat.mul_lt_mul_of_pos_right (Nat.lt_succ_self width) hpos
      _ = (width + 1) ^ (limit - depth) := by rw [hstep, Nat.pow_succ']
  calc (l.foldl (meet (depth + 1) hnext) ⟨produced, seen, queue⟩).remaining width
      ≤ remaining width ⟨produced, seen, queue⟩ +
          l.length * (width + 1) ^ (limit - (depth + 1)) := remaining_foldl_meet_le l
    _ < remaining width ⟨produced, seen, queue⟩ + (width + 1) ^ (limit - depth) :=
        Nat.add_lt_add_left hforms _
    _ = remaining width ⟨produced, seen, ⟨form, depth, hdepth⟩ :: queue⟩ := by
        rw [remaining, remaining, List.map_cons, List.sum_cons, Nat.add_comm]

end Enumerating

open Enumerating

/-- Takes forms off the queue until it is empty. A word is noted; another form is followed, unless
it was met at the limit. -/
def drain? (g : Grammar) {limit : Nat} : Enumerating limit → Option (SortedSet (List Char))
  | ⟨produced, _, []⟩ => some produced
  | ⟨produced, seen, ⟨form, depth, hdepth⟩ :: queue⟩ =>
      match form.findIdx? (· ∈ g.vars) with
      | none => drain? g ⟨insert form produced, seen, queue⟩
      | some place =>
          if hlimit : depth = limit then drain? g ⟨produced, seen, queue⟩
          else
            match _hforms : g.replaceAt? form place with
            | none => none
            | some forms =>
                drain? g (forms.foldl (meet (depth + 1) (Nat.lt_of_le_of_ne hdepth hlimit))
                  ⟨produced, seen, queue⟩)
termination_by e => e.remaining g.productions.toList.length
decreasing_by
  · simp [remaining]
  · simp [remaining]
  · exact remaining_follow_lt (length_le_of_replaceAt? _hforms)

/-! ## One form after another -/

section Turns

variable {limit depth : Nat} {produced seen : SortedSet (List Char)}
  {queue : List (QueuedForm limit)} {forms later l : List (List Char)}

/-- Forms that wait at a depth. -/
def waitingAt (depth : Nat) (hdepth : depth ≤ limit) (forms : List (List Char)) :
    List (QueuedForm limit) :=
  forms.map fun form => ⟨form, depth, hdepth⟩

/-- The forms without variables. -/
def wordsOf (g : Grammar) (forms : List (List Char)) : SortedSet (List Char) :=
  .ofList (forms.filter fun form => form.all fun c => c ∉ g.vars)

theorem mem_wordsOf {w : List Char} : w ∈ g.wordsOf forms ↔ w ∈ forms ∧ ∀ c ∈ w, c ∉ g.vars := by
  simp [wordsOf]

theorem foldl_meet {hdepth : depth ≤ limit} (l : List (List Char)) :
    l.foldl (meet depth hdepth) ⟨produced, seen, queue⟩ =
      ⟨produced, seen ∪ .ofList l,
        queue ++ waitingAt depth hdepth (Numbering.unseen seen.toList l)⟩ := by
  induction l generalizing seen queue with
  | nil => simp [SortedSet.union_ofList_nil, Numbering.unseen, waitingAt]
  | cons a l ih =>
      by_cases ha : a ∈ seen
      · rw [List.foldl_cons, meet, if_pos ha, ih, SortedSet.union_ofList_cons_of_mem ha,
          Numbering.unseen_cons_of_mem (SortedSet.mem_toList.mpr ha)]
      · have hsame : Numbering.unseen (insert a seen).toList l =
            Numbering.unseen (a :: seen.toList) l :=
          Numbering.unseen_congr (by simp [SortedSet.mem_toList])
        rw [List.foldl_cons, meet, if_neg ha, ih, SortedSet.insert_union_ofList, hsame,
          Numbering.unseen_cons_of_not_mem (mt SortedSet.mem_toList.mp ha)]
        simp [waitingAt]

theorem union_wordsOf_of_findIdx?_eq_none {form : List Char}
    (hnone : form.findIdx? (· ∈ g.vars) = none) :
    produced ∪ g.wordsOf [form] = insert form produced := by
  apply SortedSet.ext
  simp only [List.findIdx?_eq_none_iff, decide_eq_false_iff_not] at hnone
  intro w
  simp only [SortedSet.mem_union, mem_wordsOf, List.mem_singleton, SortedSet.mem_insert]
  grind

theorem union_wordsOf_of_findIdx?_eq_some {form : List Char} {place : Nat}
    (hplace : form.findIdx? (· ∈ g.vars) = some place) :
    produced ∪ g.wordsOf [form] = produced := by
  obtain ⟨hlt, hvar, _⟩ := List.findIdx?_eq_some_iff_getElem.mp hplace
  rw [decide_eq_true_eq] at hvar
  apply SortedSet.ext
  intro w
  rw [SortedSet.mem_union, mem_wordsOf, List.mem_singleton]
  refine or_iff_left ?_
  rintro ⟨rfl, hword⟩
  exact hword _ (List.getElem_mem hlt) hvar

/-- Taking a form off the queue notes it if it is a word, and queues what it leads to. -/
theorem drain?_cons {hdepth : depth ≤ limit} (hnext : depth + 1 ≤ limit) (form : List Char) :
    g.drain? ⟨produced, seen, ⟨form, depth, hdepth⟩ :: queue⟩ =
      g.drain? ⟨produced ∪ g.wordsOf [form], seen ∪ .ofList (g.leftmostSuccessors form),
        queue ++ waitingAt (depth + 1) hnext
          (Numbering.unseen seen.toList (g.leftmostSuccessors form))⟩ := by
  rw [drain?]
  cases hplace : form.findIdx? (· ∈ g.vars) with
  | none =>
      simp only [union_wordsOf_of_findIdx?_eq_none hplace, leftmostSuccessors_eq_nil hplace,
        SortedSet.union_ofList_nil, Numbering.unseen, waitingAt, List.map_nil, List.append_nil]
  | some place =>
      have hlimit : depth ≠ limit := Nat.ne_of_lt hnext
      simp only [dif_neg hlimit]
      split
      next hnone =>
        rw [replaceAt?_eq_some hplace] at hnone
        cases hnone
      next forms hforms =>
        rw [replaceAt?_eq_some hplace] at hforms
        cases hforms
        rw [foldl_meet, union_wordsOf_of_findIdx?_eq_some hplace]

/-- At the limit it queues nothing. -/
theorem drain?_cons_limit {hdepth : limit ≤ limit} (form : List Char) :
    g.drain? ⟨produced, seen, ⟨form, limit, hdepth⟩ :: queue⟩ =
      g.drain? ⟨produced ∪ g.wordsOf [form], seen, queue⟩ := by
  rw [drain?]
  cases hplace : form.findIdx? (· ∈ g.vars) with
  | none => simp only [union_wordsOf_of_findIdx?_eq_none hplace]
  | some place => simp only [dite_true, union_wordsOf_of_findIdx?_eq_some hplace]

/-! ## One layer after another -/

theorem union_wordsOf_append : produced ∪ g.wordsOf forms ∪ g.wordsOf later =
    produced ∪ g.wordsOf (forms ++ later) := by
  simp only [wordsOf, SortedSet.union_ofList_append, List.filter_append]

/-- The queue passes from forms of one depth to what they lead to at the next. -/
theorem drain?_layer {hdepth : depth ≤ limit} (hnext : depth + 1 ≤ limit)
    (forms later : List (List Char)) :
    g.drain? ⟨produced, seen,
      waitingAt depth hdepth forms ++ waitingAt (depth + 1) hnext later⟩ =
        g.drain? ⟨produced ∪ g.wordsOf forms, seen ∪ .ofList (forms.flatMap g.leftmostSuccessors),
          waitingAt (depth + 1) hnext
            (later ++ Numbering.unseen seen.toList (forms.flatMap g.leftmostSuccessors))⟩ := by
  induction forms generalizing produced seen later with
  | nil => simp [wordsOf, SortedSet.union_ofList_nil, Numbering.unseen, waitingAt]
  | cons form forms ih =>
      -- what the first form leads to is queued behind all that waits
      have hqueue : waitingAt depth hdepth forms ++ waitingAt (depth + 1) hnext later ++
          waitingAt (depth + 1) hnext
            (Numbering.unseen seen.toList (g.leftmostSuccessors form)) =
          waitingAt depth hdepth forms ++ waitingAt (depth + 1) hnext
            (later ++ Numbering.unseen seen.toList (g.leftmostSuccessors form)) := by
        simp [waitingAt]
      have hseen : Numbering.unseen (seen ∪ .ofList (g.leftmostSuccessors form)).toList
          (forms.flatMap g.leftmostSuccessors) =
            Numbering.unseen (g.leftmostSuccessors form ++ seen.toList)
              (forms.flatMap g.leftmostSuccessors) :=
        Numbering.unseen_congr (by simp [SortedSet.mem_toList, or_comm])
      rw [waitingAt, List.map_cons, List.cons_append, drain?_cons hnext, ← waitingAt, hqueue, ih,
        union_wordsOf_append, SortedSet.union_ofList_append, hseen, List.append_assoc,
        ← Numbering.unseen_append]
      rfl

/-- At the limit forms are noted, and nothing else. -/
theorem drain?_limit {hdepth : limit ≤ limit} (forms : List (List Char)) :
    g.drain? ⟨produced, seen, waitingAt limit hdepth forms⟩ =
      some (produced ∪ g.wordsOf forms) := by
  induction forms generalizing produced with
  | nil => simp [drain?, wordsOf, SortedSet.union_ofList_nil, waitingAt]
  | cons form forms ih =>
      rw [waitingAt, List.map_cons, drain?_cons_limit, ← waitingAt, ih, union_wordsOf_append]
      rfl

/-- The forms of the layers before a depth. -/
def formsBelow (g : Grammar) (depth : Nat) : List (List Char) :=
  Numbering.layersBelow g.leftmostSuccessors [g.start] depth

/-- The forms that are new at a depth. -/
def newForms (g : Grammar) (depth : Nat) : List (List Char) :=
  Numbering.unseen (Numbering.unseen [] (g.formsBelow depth))
    (Numbering.layer g.leftmostSuccessors [g.start] depth)

theorem mem_newForms {form : List Char} : form ∈ g.newForms depth ↔
    form ∈ Numbering.layer g.leftmostSuccessors [g.start] depth ∧ form ∉ g.formsBelow depth := by
  simp [newForms, Numbering.mem_unseen]

/-- What is new at a depth leads to all that is new at the next one. -/
theorem unseen_flatMap_newForms :
    Numbering.unseen (SortedSet.ofList (g.formsBelow (depth + 1))).toList
      ((g.newForms depth).flatMap g.leftmostSuccessors) = g.newForms (depth + 1) := by
  have hseen : ∀ form ∈ Numbering.unseen [] (g.formsBelow depth),
      ∀ next ∈ g.leftmostSuccessors form,
        next ∈ Numbering.unseen [] (g.formsBelow (depth + 1)) := by
    intro form hform next hnext
    simp only [Numbering.mem_unseen, List.not_mem_nil, not_false_eq_true, and_true] at hform ⊢
    exact Numbering.mem_layersBelow_of_next hform hnext
  rw [newForms, newForms, Numbering.layer, ← Numbering.unseen_flatMap hseen]
  exact Numbering.unseen_congr (by simp [SortedSet.mem_toList, Numbering.mem_unseen])

theorem wordsOf_newForms :
    g.wordsOf (g.formsBelow depth ++ g.newForms depth) = g.wordsOf (g.formsBelow (depth + 1)) := by
  apply SortedSet.ext
  intro w
  rw [mem_wordsOf, mem_wordsOf, formsBelow, formsBelow, Numbering.layersBelow_succ,
    List.mem_append, List.mem_append, mem_newForms, formsBelow]
  grind

/-- What forms of earlier layers lead to has been seen. -/
theorem seen_newForms :
    SortedSet.ofList (g.formsBelow (depth + 1)) ∪
        .ofList ((g.newForms depth).flatMap g.leftmostSuccessors) =
      .ofList (g.formsBelow (depth + 1 + 1)) := by
  apply SortedSet.ext
  intro next
  simp only [SortedSet.mem_union, SortedSet.mem_ofList]
  constructor
  · rintro (hbelow | hnext)
    · rw [formsBelow, Numbering.layersBelow_succ]
      exact List.mem_append_left _ hbelow
    · obtain ⟨form, hform, hnext⟩ := List.mem_flatMap.mp hnext
      rw [formsBelow, Numbering.layersBelow_succ]
      exact List.mem_append_right _ (List.mem_flatMap.mpr ⟨form, (mem_newForms.mp hform).1, hnext⟩)
  · rw [formsBelow, Numbering.layersBelow_succ, List.mem_append, ← formsBelow]
    rintro (hbelow | hlayer)
    · exact .inl hbelow
    · obtain ⟨form, hform, hnext⟩ := List.mem_flatMap.mp hlayer
      by_cases hbelow : form ∈ g.formsBelow depth
      · exact .inl (Numbering.mem_layersBelow_of_next hbelow hnext)
      · exact .inr (List.mem_flatMap.mpr ⟨form, mem_newForms.mpr ⟨hform, hbelow⟩, hnext⟩)

/-- With the forms of some layers seen, and the new ones of the last of them waiting, the queue goes
on until it has noted the words of all layers up to the limit. -/
theorem drain?_layers {base : SortedSet (List Char)} (hdepth : depth ≤ limit) :
    g.drain? ⟨base ∪ g.wordsOf (g.formsBelow depth), .ofList (g.formsBelow (depth + 1)),
      waitingAt depth hdepth (g.newForms depth)⟩ =
        some (base ∪ g.wordsOf (g.formsBelow (limit + 1))) := by
  induction hremaining : limit - depth generalizing depth with
  | zero =>
      obtain rfl : depth = limit := by omega
      rw [drain?_limit, union_wordsOf_append, wordsOf_newForms]
  | succ remaining ih =>
      have hnext : depth + 1 ≤ limit := by omega
      have hqueue : waitingAt depth hdepth (g.newForms depth) =
          waitingAt depth hdepth (g.newForms depth) ++ waitingAt (depth + 1) hnext [] :=
        (List.append_nil _).symm
      rw [hqueue, drain?_layer, union_wordsOf_append, wordsOf_newForms, seen_newForms,
        List.nil_append, unseen_flatMap_newForms]
      exact ih hnext (by omega)

end Turns

/-! ## Words in order -/

/-- Puts words in order, shorter words first. -/
def sortWords (words : List (List Char)) : List (List Char) :=
  words.mergeSort fun v w => ((compare v.length w.length).then (compare v w)).isLE

theorem pairwise_map_sortWords {words : List (List Char)} (hnodup : words.Nodup) :
    ((sortWords words).map ShortlexWord.ofChars).Pairwise Below := by
  have hmap : (sortWords words).map ShortlexWord.ofChars =
      (words.map ShortlexWord.ofChars).mergeSort fun v w => (compare v w).isLE :=
    List.map_mergeSort fun _ _ _ _ => rfl
  have hmapped := hnodup.map ShortlexWord.ofChars_injective
  rw [hmap]
  exact SortedSet.pairwise_below_of_nodup (SortedSet.pairwise_mergeSort _)
    (hmapped.perm (List.mergeSort_perm _ _).symm)

/-- The words of derivations of at most `limit` steps, shorter words first. -/
def produce? (g : Grammar) (limit : Nat) : Option (List (List Char)) := do
  let produced : SortedSet (List Char) := if g.acceptsEmpty then insert [] ∅ else ∅
  let words ← g.drain? ⟨produced, insert [g.start] ∅, [⟨[g.start], 0, Nat.zero_le limit⟩]⟩
  return sortWords words.toList

theorem mem_formsBelow_iff {w : List Char} {limit : Nat} :
    w ∈ g.formsBelow (limit + 1) ↔ .ofChars w ∈ g.formsWithin limit := by
  rw [ofChars_mem_formsWithin_iff, formsBelow, Numbering.mem_layersBelow]
  simp only [Nat.lt_succ_iff]

theorem drain?_start {base : SortedSet (List Char)} (limit : Nat) :
    g.drain? ⟨base, insert [g.start] ∅, [⟨[g.start], 0, Nat.zero_le limit⟩]⟩ =
      some (base ∪ g.wordsOf (g.formsBelow (limit + 1))) := by
  have hbase : base ∪ g.wordsOf (g.formsBelow 0) = base := SortedSet.union_ofList_nil
  have hseen : SortedSet.ofList (g.formsBelow (0 + 1)) = insert [g.start] ∅ := by
    apply SortedSet.ext
    simp [formsBelow, Numbering.layersBelow, Numbering.layer]
  rw [← drain?_layers (Nat.zero_le limit), hbase, hseen]
  rfl

/-- The queue finds the words of the library, in their order. -/
theorem produce?_eq (g : Grammar) (limit : Nat) : g.produce? limit = some (g.produce limit) := by
  let base : SortedSet (List Char) := if g.acceptsEmpty then insert [] ∅ else ∅
  let words := base ∪ g.wordsOf (g.formsBelow (limit + 1))
  have hwords : ∀ w, w ∈ words ↔ .ofChars w ∈ g.wordsWithin limit := by
    intro w
    have hbase : w ∈ base ↔ w = [] ∧ g.acceptsEmpty := by
      by_cases hflag : g.acceptsEmpty <;> simp [base, hflag]
    rw [SortedSet.mem_union, hbase, mem_wordsOf, mem_formsBelow_iff, mem_wordsWithin_iff, or_comm]
  have hlist : (sortWords words.toList).map ShortlexWord.ofChars = (g.wordsWithin limit).toList := by
    apply SortedSet.eq_of_pairwise (pairwise_map_sortWords words.nodup) (g.wordsWithin limit).sorted
    intro form
    have hform : ShortlexWord.ofChars form.chars = form := ShortlexWord.ext rfl
    rw [← hform, SortedSet.mem_toList, ← hwords,
      List.mem_map_of_injective ShortlexWord.ofChars_injective, sortWords, List.mem_mergeSort,
      SortedSet.mem_toList]
  have hchars : ((sortWords words.toList).map ShortlexWord.ofChars).map ShortlexWord.chars =
      sortWords words.toList := by
    simp [Function.comp_def]
  rw [produce?, drain?_start, produce, ← hlist, hchars]
  rfl

end Grammar

end LanguageTheory
