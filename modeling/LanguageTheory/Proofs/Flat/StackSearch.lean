import LanguageTheory.SortedSet.Closure

/-!
# Search with a stack

A search marks an element as seen when it pushes it, and follows it when it takes it off the stack.
So every element is pushed once, whatever the cycles, and what has been seen has been followed or
waits on the stack (`Searching`). A round keeps this (`Searching.follow`). When the stack is empty,
all that has been seen has been followed, so it is the closure (`drain_start`), and there have been
as many rounds as it has elements.
-/

namespace LanguageTheory

namespace SortedSet

variable {α : Type} [TotalOrd α] {s t : SortedSet α} {a : α}

theorem size_insert (ha : a ∉ s) : (insert a s).size = s.size + 1 := by
  have hnodup : (a :: s.toList).Nodup := List.nodup_cons.mpr ⟨ha, s.nodup⟩
  rw [size_eq_of_nodup hnodup (by simp [mem_toList]), List.length_cons, length_toList]

end SortedSet

/-- A search in its course: what it has seen, what of this waits, the last that was pushed first,
and how often it has taken something off the stack. -/
structure StackSearch (α : Type) [TotalOrd α] where
  seen : SortedSet α
  stack : List α
  rounds : Nat

namespace StackSearch

variable {α : Type} [TotalOrd α] {search : StackSearch α} {a b : α} {l bound : List α}

/-! ## Meeting elements -/

/-- A new element is marked as seen and pushed. -/
def meet (search : StackSearch α) (a : α) : StackSearch α :=
  if a ∈ search.seen then search
  else { search with seen := insert a search.seen, stack := a :: search.stack }

theorem meet_of_mem (ha : a ∈ search.seen) : search.meet a = search := if_pos ha

theorem meet_of_not_mem (ha : a ∉ search.seen) :
    search.meet a = { search with seen := insert a search.seen, stack := a :: search.stack } :=
  if_neg ha

theorem mem_seen_meet : b ∈ (search.meet a).seen ↔ b ∈ search.seen ∨ b = a := by
  by_cases ha : a ∈ search.seen
  · rw [meet_of_mem ha]
    exact (or_iff_left_of_imp fun hb => hb ▸ ha).symm
  · rw [meet_of_not_mem ha, SortedSet.mem_insert, or_comm]

theorem mem_stack_meet :
    b ∈ (search.meet a).stack ↔ b ∈ search.stack ∨ b = a ∧ a ∉ search.seen := by
  by_cases ha : a ∈ search.seen
  · simp [meet_of_mem ha, ha]
  · simp [meet_of_not_mem ha, ha, or_comm]

theorem mem_seen_foldl_meet : b ∈ (l.foldl meet search).seen ↔ b ∈ search.seen ∨ b ∈ l := by
  induction l generalizing search with
  | nil => simp
  | cons a l ih => rw [List.foldl_cons, ih, mem_seen_meet, or_assoc, List.mem_cons]

/-- What is met waits if it has not been seen before. -/
theorem mem_stack_foldl_meet :
    b ∈ (l.foldl meet search).stack ↔ b ∈ search.stack ∨ b ∈ l ∧ b ∉ search.seen := by
  induction l generalizing search with
  | nil => simp
  | cons a l ih =>
      rw [List.foldl_cons, ih, mem_stack_meet, mem_seen_meet, List.mem_cons]
      by_cases hba : b = a
      · simp [hba]
      · simp [hba]

/-! ## Rounds -/

/-- What is still to be done at most: what waits, and what of the bound has not been seen. -/
def remaining (bound : List α) (search : StackSearch α) : Nat :=
  search.stack.length + (bound.filter fun a => a ∉ search.seen).length

theorem remaining_meet_le (ha : a ∈ bound) :
    (search.meet a).remaining bound ≤ search.remaining bound := by
  by_cases hseen : a ∈ search.seen
  · exact Nat.le_of_eq (congrArg (remaining bound) (meet_of_mem hseen))
  · rw [meet_of_not_mem hseen]
    have hfewer : (bound.filter fun b => b ∉ insert a search.seen).length <
        (bound.filter fun b => b ∉ search.seen).length :=
      length_filter_lt (by simp) ha (by simpa using hseen) (by simp)
    simp only [remaining, List.length_cons]
    omega

theorem remaining_foldl_meet_le (hl : l ⊆ bound) :
    (l.foldl meet search).remaining bound ≤ search.remaining bound := by
  induction l generalizing search with
  | nil => exact Nat.le_refl _
  | cons a l ih =>
      obtain ⟨ha, hl⟩ := List.cons_subset.mp hl
      exact Nat.le_trans (ih hl) (remaining_meet_le ha)

/-- Taking something off the stack leaves less to be done, whatever it leads to. -/
theorem remaining_follow_lt {seen : SortedSet α} {stack : List α} {rounds : Nat} (hl : l ⊆ bound) :
    (l.foldl meet ⟨seen, stack, rounds + 1⟩).remaining bound <
      remaining bound ⟨seen, a :: stack, rounds⟩ := by
  refine Nat.lt_of_le_of_lt (remaining_foldl_meet_le hl) ?_
  simp only [remaining, List.length_cons]
  omega

/-- The search begins with elements that it has seen, and which wait. -/
def start (elements : SortedSet α) : StackSearch α := ⟨elements, elements.toList.reverse, 0⟩

/-- Rounds until nothing waits, unless one looks up successors that are missing. -/
def drain (next? : α → Option (SortedSet α))
    (hnext? : Bounded fun a => ((next? a).map SortedSet.toList).getD []) (search : StackSearch α) :
    Option (StackSearch α) :=
  match search with
  | ⟨seen, [], rounds⟩ => some ⟨seen, [], rounds⟩
  | ⟨seen, a :: stack, rounds⟩ =>
      match _hread : next? a with
      | none => none
      | some successors =>
          drain next? hnext? (successors.toList.foldl meet ⟨seen, stack, rounds + 1⟩)
termination_by search.remaining hnext?.exists_bound.choose
decreasing_by
  apply remaining_follow_lt
  intro b hb
  apply hnext?.exists_bound.choose_spec a
  rw [_hread]
  exact hb

/-! ## The closure -/

variable {next : α → SortedSet α} {hnext : Bounded fun a => (next a).toList}
  {elements seen : SortedSet α} {stack : List α} {rounds : Nat}

/-- What holds in the course of a search from some elements: what has been seen belongs to the
closure, and what of it does not wait has been followed. -/
structure Searching (next : α → SortedSet α) (hnext : Bounded fun a => (next a).toList)
    (elements : SortedSet α) (search : StackSearch α) : Prop where
  mem_seen : ∀ a ∈ elements, a ∈ search.seen
  mem_closure : ∀ a ∈ search.seen, a ∈ SortedSet.closure next hnext elements
  seen_of_waits : ∀ a ∈ search.stack, a ∈ search.seen
  followed : ∀ a ∈ search.seen, a ∉ search.stack → ∀ b ∈ next a, b ∈ search.seen
  size_seen : search.seen.size = search.rounds + search.stack.length

theorem searching_start : Searching next hnext elements (start elements) where
  mem_seen _ ha := ha
  mem_closure a ha := SortedSet.mem_closure.mpr ⟨a, ha, .refl⟩
  seen_of_waits _ ha := List.mem_reverse.mp ha
  followed a ha hwaits := absurd (List.mem_reverse.mpr ha) hwaits
  size_seen := by simp [start, SortedSet.length_toList]

/-- What is marked as seen is pushed, so both grow alike. -/
theorem size_seen_foldl_meet (hsize : search.seen.size = search.rounds + search.stack.length) :
    (l.foldl meet search).seen.size =
      (l.foldl meet search).rounds + (l.foldl meet search).stack.length := by
  induction l generalizing search with
  | nil => exact hsize
  | cons a l ih =>
      apply ih
      by_cases ha : a ∈ search.seen
      · rwa [meet_of_mem ha]
      · rw [meet_of_not_mem ha, SortedSet.size_insert ha, hsize, List.length_cons, Nat.add_assoc]

namespace Searching

theorem top_mem_closure (h : Searching next hnext elements ⟨seen, a :: stack, rounds⟩) :
    a ∈ SortedSet.closure next hnext elements :=
  h.mem_closure a (h.seen_of_waits a List.mem_cons_self)

/-- A round keeps it: the only element that stops waiting is the one that is followed. -/
theorem follow (h : Searching next hnext elements ⟨seen, a :: stack, rounds⟩) :
    Searching next hnext elements ((next a).toList.foldl meet ⟨seen, stack, rounds + 1⟩) where
  mem_seen b hb := mem_seen_foldl_meet.mpr (.inl (h.mem_seen b hb))
  mem_closure b hb := by
    rcases mem_seen_foldl_meet.mp hb with hold | hnew
    · exact h.mem_closure b hold
    · exact SortedSet.mem_closure_of_next h.top_mem_closure hnew
  seen_of_waits b hb := by
    rcases mem_stack_foldl_meet.mp hb with hold | hnew
    · exact mem_seen_foldl_meet.mpr (.inl (h.seen_of_waits b (List.mem_cons_of_mem a hold)))
    · exact mem_seen_foldl_meet.mpr (.inr hnew.1)
  followed b hb hwaits c hc := by
    simp only [mem_stack_foldl_meet, not_or, not_and, Decidable.not_not] at hwaits
    -- what has been met just now for the first time waits
    have hseen : b ∈ seen := (mem_seen_foldl_meet.mp hb).elim id hwaits.2
    rw [mem_seen_foldl_meet]
    by_cases hba : b = a
    · exact .inr (hba ▸ hc)
    · exact .inl (h.followed b hseen (by simp [hba, hwaits.1]) c hc)
  size_seen := by
    apply size_seen_foldl_meet
    have hsize := h.size_seen
    simp only [List.length_cons] at hsize ⊢
    omega

/-- When nothing waits, the closure has been seen. -/
theorem eq_closure (h : Searching next hnext elements ⟨seen, [], rounds⟩) :
    SortedSet.closure next hnext elements = seen :=
  SortedSet.closure_eq h.mem_seen (fun a ha => h.followed a ha List.not_mem_nil) h.mem_closure

end Searching

/-- The search ends with the closure if there are successors of all that is in it. -/
theorem drain_of_searching {next? : α → Option (SortedSet α)}
    {hnext? : Bounded fun a => ((next? a).map SortedSet.toList).getD []}
    (hread : ∀ a ∈ SortedSet.closure next hnext elements, next? a = some (next a))
    (h : Searching next hnext elements search) :
    drain next? hnext? search = some
      ⟨.closure next hnext elements, [], (SortedSet.closure next hnext elements).size⟩ := by
  fun_induction drain next? hnext? search with
  | case1 seen rounds =>
      have hsize : seen.size = rounds := h.size_seen
      rw [h.eq_closure, hsize]
  | case2 seen a stack rounds hmissing =>
      have hfound := hread a h.top_mem_closure
      rw [hmissing] at hfound
      cases hfound
  | case3 seen a stack rounds successors hsome ih =>
      have hfound := hread a h.top_mem_closure
      obtain rfl := Option.some.inj (hsome.symm.trans hfound)
      exact ih h.follow

theorem drain_start {next? : α → Option (SortedSet α)}
    {hnext? : Bounded fun a => ((next? a).map SortedSet.toList).getD []}
    (hread : ∀ a ∈ SortedSet.closure next hnext elements, next? a = some (next a)) :
    drain next? hnext? (start elements) = some
      ⟨.closure next hnext elements, [], (SortedSet.closure next hnext elements).size⟩ :=
  drain_of_searching hread searching_start

end StackSearch

end LanguageTheory
