import LanguageTheory.SortedSet.Closure

/-!
# Closure where successors may be missing

The search of the closure looks the successors of every element up when its turn comes, and looking
up may fail. It finds the closure when the lookups succeed on all that can be reached
(`closure?_eq_some`), and it fails when it begins with an element without successors
(`closure?_eq_none`), whatever the order of the search.
-/

namespace LanguageTheory.SortedSet

variable {α : Type} [TotalOrd α]

/-! ## The search -/

section Search

variable {next? : α → Option (List α)} {hnext? : Bounded fun a => (next? a).getD []}
  {seen : Std.TreeSet α} {waiting : List α} {a : α}

/-- Adds what can be reached from the waiting elements, unless one has no successors. -/
def spread? (next? : α → Option (List α)) (hnext? : Bounded fun a => (next? a).getD [])
    (seen : Std.TreeSet α) (waiting : List α) : Option (Std.TreeSet α) :=
  match waiting with
  | [] => some seen
  | a :: waiting =>
      match _hread : next? a with
      | none => none
      | some successors =>
          let fresh := successors.filter fun b => !seen.contains b
          if _hfresh : fresh.isEmpty then spread? next? hnext? seen waiting
          else spread? next? hnext? (seen.insertMany fresh) (fresh ++ waiting)
termination_by
  ((hnext?.exists_bound.choose.filter fun a => !seen.contains a).length, waiting.length)
decreasing_by
  · exact Prod.Lex.right _ (Nat.lt_succ_self _)
  · refine Prod.Lex.left _ _ (length_unseen_lt ?_ _hfresh)
    intro b hb
    apply hnext?.exists_bound.choose_spec a
    rwa [_hread]

theorem spread?_eq_some {next : α → List α} {hnext : Bounded next} {P : α → Prop}
    (hknown : ∀ a, P a → next? a = some (next a) ∧ ∀ b ∈ next a, P b)
    (hwaiting : ∀ a ∈ waiting, P a) :
    spread? next? hnext? seen waiting = some (spread next hnext seen waiting) := by
  fun_induction spread next hnext seen waiting with
  | case1 => rw [spread?]
  | case2 seen a waiting fresh hfresh ih =>
      obtain ⟨hread, _⟩ := hknown a (hwaiting a List.mem_cons_self)
      have hrest := ih fun b hb => hwaiting b (List.mem_cons_of_mem a hb)
      rw [spread?, ← hrest]
      split
      next hnone =>
        rw [hread] at hnone
        cases hnone
      next successors hsome =>
        obtain rfl := Option.some.inj (hread.symm.trans hsome)
        exact dif_pos hfresh
  | case3 seen a waiting fresh hfresh ih =>
      obtain ⟨hread, hsuccessors⟩ := hknown a (hwaiting a List.mem_cons_self)
      have hrest := ih (by
        intro b hb
        rcases List.mem_append.mp hb with hnew | hold
        · exact hsuccessors b (List.mem_filter.mp hnew).1
        · exact hwaiting b (List.mem_cons_of_mem a hold))
      rw [spread?, ← hrest]
      split
      next hnone =>
        rw [hread] at hnone
        cases hnone
      next successors hsome =>
        obtain rfl := Option.some.inj (hread.symm.trans hsome)
        exact dif_neg hfresh

/-- Every waiting element has its turn. -/
theorem spread?_eq_none (hmissing : next? a = none) (ha : a ∈ waiting) :
    spread? next? hnext? seen waiting = none := by
  fun_induction spread? next? hnext? seen waiting with
  | case1 => exact absurd ha List.not_mem_nil
  | case2 => rfl
  | case3 seen b waiting successors hread fresh hfresh ih =>
      apply ih
      refine (List.mem_cons.mp ha).resolve_left ?_
      rintro rfl
      rw [hmissing] at hread
      cases hread
  | case4 seen b waiting successors hread fresh hfresh ih =>
      apply ih
      refine List.mem_append_right _ ((List.mem_cons.mp ha).resolve_left ?_)
      rintro rfl
      rw [hmissing] at hread
      cases hread

end Search

/-! ## The closure -/

variable {next? : α → Option (SortedSet α)}
  {hnext? : Bounded fun a => ((next? a).map toList).getD []} {start : SortedSet α} {a : α}

/-- What can be reached from `start`, unless something met on the way has no successors. -/
def closure? (next? : α → Option (SortedSet α))
    (hnext? : Bounded fun a => ((next? a).map toList).getD []) (start : SortedSet α) :
    Option (SortedSet α) :=
  (spread? (fun a => (next? a).map toList) hnext? (.ofList start.toList) start.toList).map ofTree

theorem closure?_eq_some {next : α → SortedSet α} {hnext : Bounded fun a => (next a).toList}
    {P : α → Prop} (hknown : ∀ a, P a → next? a = some (next a) ∧ ∀ b ∈ next a, P b)
    (hstart : ∀ a ∈ start, P a) :
    closure? next? hnext? start = some (closure next hnext start) := by
  have hspread : spread? (fun a => (next? a).map toList) hnext? (.ofList start.toList)
      start.toList = some (spread (fun a => (next a).toList) hnext (.ofList start.toList)
        start.toList) := by
    refine spread?_eq_some ?_ hstart
    intro a ha
    obtain ⟨hread, hsuccessors⟩ := hknown a ha
    exact ⟨by rw [hread, Option.map_some], hsuccessors⟩
  rw [closure?, hspread]
  rfl

theorem closure?_eq_none (hmissing : next? a = none) (ha : a ∈ start) :
    closure? next? hnext? start = none := by
  have hlookup : (next? a).map toList = none := by rw [hmissing, Option.map_none]
  rw [closure?, spread?_eq_none hlookup ha]
  rfl

end LanguageTheory.SortedSet
