import LanguageTheory.TotalOrd

/-!
# Finite sets in sorted form

A finite set is kept as its elements in strictly increasing order, so two sets with the same
elements are the same value (`SortedSet.ext`), and an element is found by halving. Every operation
is described by its elements.
-/

universe u v w

namespace LanguageTheory

/-- A finite set, in strictly increasing order. -/
structure SortedSet (α : Type u) [TotalOrd α] where
  elements : Array α
  sorted' : elements.toList.Pairwise Below
deriving DecidableEq

namespace SortedSet

variable {α : Type u} {β : Type v} {γ : Type w} [TotalOrd α] [TotalOrd β] {a b : α}
  {s t : SortedSet α}

/-- The elements in increasing order. -/
def toList (s : SortedSet α) : List α := s.elements.toList

theorem sorted (s : SortedSet α) : s.toList.Pairwise Below := s.sorted'

/-- The set of a strictly increasing list. -/
def ofSorted (l : List α) (hl : l.Pairwise Below) : SortedSet α := ⟨l.toArray, hl⟩

@[simp] theorem toList_ofSorted {l : List α} {hl : l.Pairwise Below} :
    (ofSorted l hl).toList = l := rfl

instance : Membership α (SortedSet α) := ⟨fun s a => a ∈ s.toList⟩

theorem mem_toList : a ∈ s.toList ↔ a ∈ s := Iff.rfl

@[simp] theorem mem_ofSorted {l : List α} {hl : l.Pairwise Below} : a ∈ ofSorted l hl ↔ a ∈ l :=
  Iff.rfl

/-- Two strictly increasing listings of the same elements are equal. -/
theorem eq_of_pairwise {l m : List α} (hl : l.Pairwise Below) (hm : m.Pairwise Below)
    (h : ∀ a, a ∈ l ↔ a ∈ m) : l = m := by
  induction l generalizing m with
  | nil =>
      cases m with
      | nil => rfl
      | cons b m => exact absurd ((h b).mpr List.mem_cons_self) List.not_mem_nil
  | cons a l ih =>
      cases m with
      | nil => exact absurd ((h a).mp List.mem_cons_self) List.not_mem_nil
      | cons b m =>
          obtain ⟨hal, hl'⟩ := List.pairwise_cons.mp hl
          obtain ⟨hbm, hm'⟩ := List.pairwise_cons.mp hm
          have hab : a = b := by
            rcases List.mem_cons.mp ((h a).mp List.mem_cons_self) with hab | ham
            · exact hab
            rcases List.mem_cons.mp ((h b).mpr List.mem_cons_self) with hba | hbl
            · exact hba.symm
            exact absurd (hal b hbl) (hbm a ham).asymm
          subst hab
          congr 1
          refine ih hl' hm' fun c => ⟨fun hc => ?_, fun hc => ?_⟩
          · rcases List.mem_cons.mp ((h c).mp (List.mem_cons_of_mem _ hc)) with rfl | hcm
            · exact absurd (hal c hc) (Below.irrefl c)
            · exact hcm
          · rcases List.mem_cons.mp ((h c).mpr (List.mem_cons_of_mem _ hc)) with rfl | hcl
            · exact absurd (hbm c hc) (Below.irrefl c)
            · exact hcl

theorem toList_inj (h : s.toList = t.toList) : s = t := by
  obtain ⟨elements, _⟩ := s
  obtain ⟨elements', _⟩ := t
  simp only [mk.injEq]
  exact Array.toList_inj.mp h

/-- A set is determined by its elements. -/
theorem ext (h : ∀ a, a ∈ s ↔ a ∈ t) : s = t := toList_inj (eq_of_pairwise s.sorted t.sorted h)

/-- Sets are ordered by their listings. -/
instance : Ord (SortedSet α) := ⟨compareOn toList⟩

instance : Std.TransOrd (SortedSet α) :=
  inferInstanceAs (Std.TransCmp (compareOn (toList (α := α))))

instance : TotalOrd (SortedSet α) where
  eq_of_compare h := toList_inj (Std.LawfulEqOrd.eq_of_compare h)
  decEq := inferInstance

/-! ## Ranks -/

/-- The number of elements. -/
def size (s : SortedSet α) : Nat := s.elements.size

/-- The element of a given rank. -/
def get (s : SortedSet α) (i : Fin s.size) : α :=
  have hi : i.val < s.elements.size := i.2
  s.elements[i.val]

theorem get_eq (s : SortedSet α) (i : Fin s.size) : s.get i = s.toList.get i := rfl

theorem get_mem (s : SortedSet α) (i : Fin s.size) : s.get i ∈ s := List.get_mem s.toList i

theorem exists_get_eq (ha : a ∈ s) : ∃ i, s.get i = a := by
  obtain ⟨i, hi⟩ := List.get_of_mem ha
  exact ⟨i, hi⟩

/-- Elements of higher rank are greater. -/
theorem get_lt_get {i j : Fin s.size} (hij : i < j) : Below (s.get i) (s.get j) :=
  List.pairwise_iff_getElem.mp s.sorted i j i.2 j.2 hij

theorem get_inj {i j : Fin s.size} (h : s.get i = s.get j) : i = j := by
  rcases Nat.lt_trichotomy i j with hij | hij | hij
  · exact absurd h (get_lt_get hij).ne
  · exact Fin.ext hij
  · exact absurd h.symm (get_lt_get hij).ne

/-- Elements are in the order of their ranks. -/
theorem get_below_get_iff {i j : Fin s.size} : Below (s.get i) (s.get j) ↔ i < j := by
  refine ⟨?_, get_lt_get⟩
  intro hbelow
  rcases Nat.lt_trichotomy i j with hij | hij | hij
  · exact hij
  · exact absurd (congrArg s.get (Fin.ext hij)) hbelow.ne
  · exact absurd hbelow (get_lt_get hij).asymm

/-- Looks for `a` between two ranks, halving what is between them at most `rounds` times. -/
def find (s : SortedSet α) (a : α) : (rounds low high : Nat) → Option (Fin s.size)
  | 0, _, _ => none
  | rounds + 1, low, high =>
      if h : low < high ∧ high ≤ s.size then
        let middle : Fin s.size := ⟨(low + high) / 2, by omega⟩
        match compare a (s.get middle) with
        | .lt => s.find a rounds low middle
        | .eq => some middle
        | .gt => s.find a rounds (middle + 1) high
      else none

theorem get_of_find {rounds low high : Nat} {i : Fin s.size}
    (h : s.find a rounds low high = some i) : s.get i = a := by
  induction rounds generalizing low high with
  | zero => cases h
  | succ rounds ih =>
      simp only [find] at h
      split at h
      next =>
        split at h
        next => exact ih h
        next heq =>
          obtain rfl := Option.some.inj h
          exact (Std.LawfulEqOrd.eq_of_compare heq).symm
        next => exact ih h
      next => cases h

theorem find_get {rounds low high : Nat} {i : Fin s.size} (hlow : low ≤ i) (hhigh : i < high)
    (hsize : high ≤ s.size) (hrounds : high - low ≤ rounds) :
    s.find (s.get i) rounds low high = some i := by
  induction rounds generalizing low high with
  | zero => omega
  | succ rounds ih =>
      simp only [find]
      rw [dif_pos ⟨by omega, hsize⟩]
      split
      next hlt =>
        have hi : i.val < (low + high) / 2 := get_below_get_iff.mp hlt
        exact ih hlow hi (by omega) (by omega)
      next heq => exact congrArg some (get_inj (Std.LawfulEqOrd.eq_of_compare heq)).symm
      next hgt =>
        have hbelow := Std.OrientedCmp.lt_of_gt hgt
        have hi : (low + high) / 2 < i.val := get_below_get_iff.mp hbelow
        exact ih hi hhigh hsize (by omega)

/-- The rank of an element: the least element has rank 0. -/
def rank? (s : SortedSet α) (a : α) : Option (Fin s.size) := s.find a s.size 0 s.size

theorem rank?_eq_some_iff {i : Fin s.size} : s.rank? a = some i ↔ s.get i = a := by
  refine ⟨get_of_find, ?_⟩
  rintro rfl
  exact find_get (Nat.zero_le _) i.2 (Nat.le_refl _) (Nat.le_refl _)

theorem isSome_rank?_iff : (s.rank? a).isSome ↔ a ∈ s := by
  rw [Option.isSome_iff_exists]
  constructor
  · rintro ⟨i, hi⟩
    exact rank?_eq_some_iff.mp hi ▸ s.get_mem i
  · intro ha
    obtain ⟨i, hi⟩ := exists_get_eq ha
    exact ⟨i, rank?_eq_some_iff.mpr hi⟩

theorem rank?_eq_none_iff : s.rank? a = none ↔ a ∉ s := by
  rw [← isSome_rank?_iff, Bool.not_eq_true, Option.isSome_eq_false_iff, Option.isNone_iff_eq_none]

instance (a : α) (s : SortedSet α) : Decidable (a ∈ s) := decidable_of_iff _ isSome_rank?_iff

/-! ## Construction -/

/-- The set with no element. -/
protected def empty : SortedSet α := ofSorted [] .nil

instance : EmptyCollection (SortedSet α) := ⟨.empty⟩

instance : Inhabited (SortedSet α) := ⟨.empty⟩

@[simp] theorem not_mem_empty (a : α) : a ∉ (∅ : SortedSet α) := List.not_mem_nil

/-- Inserts `a` at its place in a strictly increasing list, unless it is there. -/
def insertSorted (a : α) : List α → List α
  | [] => [a]
  | b :: l =>
      match compare a b with
      | .lt => a :: b :: l
      | .eq => b :: l
      | .gt => b :: insertSorted a l

theorem mem_insertSorted {l : List α} : b ∈ insertSorted a l ↔ b = a ∨ b ∈ l := by
  induction l with
  | nil => simp [insertSorted]
  | cons c l ih =>
      unfold insertSorted
      split
      next => simp
      next heq =>
        have hac : a = c := Std.LawfulEqOrd.compare_eq_iff_eq.mp heq
        simp [hac]
      next =>
        simp only [List.mem_cons, ih]
        grind

theorem pairwise_insertSorted {l : List α} (hl : l.Pairwise Below) :
    (insertSorted a l).Pairwise Below := by
  induction l with
  | nil => simp [insertSorted]
  | cons c l ih =>
      obtain ⟨hcl, hl'⟩ := List.pairwise_cons.mp hl
      unfold insertSorted
      split
      next hlt =>
        refine List.pairwise_cons.mpr ⟨fun d hd => ?_, hl⟩
        rcases List.mem_cons.mp hd with rfl | hd
        · exact hlt
        · exact Below.trans hlt (hcl d hd)
      next => exact hl
      next hgt =>
        refine List.pairwise_cons.mpr ⟨fun d hd => ?_, ih hl'⟩
        rcases mem_insertSorted.mp hd with rfl | hd
        · exact Std.OrientedCmp.lt_of_gt hgt
        · exact hcl d hd

instance : Insert α (SortedSet α) :=
  ⟨fun a s => ofSorted (insertSorted a s.toList) (pairwise_insertSorted s.sorted)⟩

instance : Singleton α (SortedSet α) := ⟨fun a => ofSorted [a] (List.pairwise_singleton _ _)⟩

@[simp] theorem mem_insert : b ∈ insert a s ↔ b = a ∨ b ∈ s := mem_insertSorted

@[simp] theorem mem_singleton : b ∈ ({a} : SortedSet α) ↔ b = a := List.mem_singleton

/-! ## Union and lists -/

/-- Merges `a` and what `rest` merges into a strictly increasing list. -/
def mergeHead (a : α) (rest : List α → List α) : List α → List α
  | [] => a :: rest []
  | b :: m =>
      match compare a b with
      | .lt => a :: rest (b :: m)
      | .eq => a :: rest m
      | .gt => b :: mergeHead a rest m

/-- Merges two strictly increasing lists. -/
def mergeSorted : List α → List α → List α
  | [] => id
  | a :: l => mergeHead a (mergeSorted l)

theorem mem_mergeHead {rest : List α → List α} {l m : List α}
    (hrest : ∀ m, b ∈ rest m ↔ b ∈ l ∨ b ∈ m) :
    b ∈ mergeHead a rest m ↔ b ∈ a :: l ∨ b ∈ m := by
  induction m with
  | nil => simp [mergeHead, hrest]
  | cons c m ih =>
      unfold mergeHead
      split
      next => simp [hrest, or_assoc]
      next heq =>
        have hac : a = c := Std.LawfulEqOrd.compare_eq_iff_eq.mp heq
        simp only [List.mem_cons, hrest, hac]
        grind
      next =>
        simp only [List.mem_cons, ih]
        grind

theorem mem_mergeSorted {l m : List α} : a ∈ mergeSorted l m ↔ a ∈ l ∨ a ∈ m := by
  induction l generalizing m with
  | nil => simp [mergeSorted]
  | cons b l ih => exact mem_mergeHead fun m => ih

theorem pairwise_mergeHead {l m : List α} (hl : (a :: l).Pairwise Below) (hm : m.Pairwise Below)
    (hrest : ∀ m, m.Pairwise Below → (mergeSorted l m).Pairwise Below) :
    (mergeHead a (mergeSorted l) m).Pairwise Below := by
  obtain ⟨hal, _⟩ := List.pairwise_cons.mp hl
  induction m with
  | nil =>
      refine List.pairwise_cons.mpr ⟨fun b hb => ?_, hrest [] .nil⟩
      rcases mem_mergeSorted.mp hb with hb | hb
      · exact hal b hb
      · exact absurd hb List.not_mem_nil
  | cons c m ih =>
      obtain ⟨hcm, hm'⟩ := List.pairwise_cons.mp hm
      unfold mergeHead
      split
      next hlt =>
        refine List.pairwise_cons.mpr ⟨fun b hb => ?_, hrest _ hm⟩
        rcases mem_mergeSorted.mp hb with hb | hb
        · exact hal b hb
        · rcases List.mem_cons.mp hb with rfl | hb
          · exact hlt
          · exact Below.trans hlt (hcm b hb)
      next heq =>
        have hac : a = c := Std.LawfulEqOrd.compare_eq_iff_eq.mp heq
        refine List.pairwise_cons.mpr ⟨fun b hb => ?_, hrest m hm'⟩
        rcases mem_mergeSorted.mp hb with hb | hb
        · exact hal b hb
        · exact hac ▸ hcm b hb
      next hgt =>
        have hca : Below c a := Std.OrientedCmp.lt_of_gt hgt
        refine List.pairwise_cons.mpr ⟨fun b hb => ?_, ih hm'⟩
        rcases (mem_mergeHead fun m => mem_mergeSorted).mp hb with hb | hb
        · rcases List.mem_cons.mp hb with rfl | hb
          · exact hca
          · exact hca.trans (hal b hb)
        · exact hcm b hb

theorem pairwise_mergeSorted {l m : List α} (hl : l.Pairwise Below) (hm : m.Pairwise Below) :
    (mergeSorted l m).Pairwise Below := by
  induction l generalizing m with
  | nil => exact hm
  | cons a l ih => exact pairwise_mergeHead hl hm fun m hm => ih (List.pairwise_cons.mp hl).2 hm

instance : Union (SortedSet α) :=
  ⟨fun s t => ofSorted (mergeSorted s.toList t.toList) (pairwise_mergeSorted s.sorted t.sorted)⟩

@[simp] theorem mem_union : a ∈ s ∪ t ↔ a ∈ s ∨ a ∈ t := mem_mergeSorted

/-- Merges neighbours two by two. -/
def mergePairs : List (List α) → List (List α)
  | l :: m :: rest => mergeSorted l m :: mergePairs rest
  | lists => lists

/-- Merges all lists, in rounds that halve their number. -/
def mergeAll : Nat → List (List α) → List α
  | _, [] => []
  | _, [l] => l
  | 0, l :: rest => rest.foldl mergeSorted l
  | rounds + 1, lists => mergeAll rounds (mergePairs lists)

theorem exists_mem_mergePairs {lists : List (List α)} :
    (∃ l ∈ mergePairs lists, a ∈ l) ↔ ∃ l ∈ lists, a ∈ l := by
  fun_induction mergePairs lists with
  | case1 l m rest ih => simp [ih, mem_mergeSorted, or_assoc]
  | case2 => rfl

theorem pairwise_of_mem_mergePairs {l : List α} {lists : List (List α)}
    (hlists : ∀ l ∈ lists, l.Pairwise Below) (hl : l ∈ mergePairs lists) : l.Pairwise Below := by
  fun_induction mergePairs lists with
  | case1 m m' rest ih =>
      simp only [List.forall_mem_cons] at hlists
      rcases List.mem_cons.mp hl with rfl | hl
      · exact pairwise_mergeSorted hlists.1 hlists.2.1
      · exact ih hlists.2.2 hl
  | case2 => exact hlists l hl

theorem mem_foldl_mergeSorted {l : List α} {lists : List (List α)} :
    a ∈ lists.foldl mergeSorted l ↔ a ∈ l ∨ ∃ m ∈ lists, a ∈ m := by
  induction lists generalizing l with
  | nil => simp
  | cons m lists ih => simp [ih, mem_mergeSorted, or_assoc]

theorem pairwise_foldl_mergeSorted {l : List α} {lists : List (List α)} (hl : l.Pairwise Below)
    (hlists : ∀ l ∈ lists, l.Pairwise Below) : (lists.foldl mergeSorted l).Pairwise Below := by
  induction lists generalizing l with
  | nil => exact hl
  | cons m lists ih =>
      simp only [List.forall_mem_cons] at hlists
      exact ih (pairwise_mergeSorted hl hlists.1) hlists.2

theorem mem_mergeAll {rounds : Nat} {lists : List (List α)} :
    a ∈ mergeAll rounds lists ↔ ∃ l ∈ lists, a ∈ l := by
  fun_induction mergeAll rounds lists with
  | case1 => simp
  | case2 => simp
  | case3 => simp [mem_foldl_mergeSorted]
  | case4 rounds lists _ _ ih => rw [ih, exists_mem_mergePairs]

theorem pairwise_mergeAll {rounds : Nat} {lists : List (List α)}
    (hlists : ∀ l ∈ lists, l.Pairwise Below) : (mergeAll rounds lists).Pairwise Below := by
  fun_induction mergeAll rounds lists with
  | case1 => exact .nil
  | case2 _ l => exact hlists l List.mem_cons_self
  | case3 l rest =>
      simp only [List.forall_mem_cons] at hlists
      exact pairwise_foldl_mergeSorted hlists.1 hlists.2
  | case4 rounds lists _ _ ih => exact ih fun l hl => pairwise_of_mem_mergePairs hlists hl

/-- The set of the elements of a list, in whatever order and however often they are listed. -/
def ofList (l : List α) : SortedSet α :=
  ofSorted (mergeAll l.length (l.map fun a => [a])) (pairwise_mergeAll fun m hm => by
    obtain ⟨a, _, rfl⟩ := List.mem_map.mp hm
    exact List.pairwise_singleton _ _)

@[simp] theorem mem_ofList {l : List α} : a ∈ ofList l ↔ a ∈ l := by
  simp only [ofList, mem_ofSorted, mem_mergeAll, List.mem_map]
  constructor
  · rintro ⟨_, ⟨b, hb, rfl⟩, ha⟩
    exact List.mem_singleton.mp ha ▸ hb
  · exact fun ha => ⟨[a], ⟨a, ha, rfl⟩, List.mem_singleton_self a⟩

@[simp] theorem ofList_toList (s : SortedSet α) : ofList s.toList = s :=
  ext fun _ => mem_ofList

/-! ## Selection -/

/-- The elements that pass a test. -/
def filter (p : α → Bool) (s : SortedSet α) : SortedSet α :=
  ofSorted (s.toList.filter p) (s.sorted.filter p)

@[simp] theorem mem_filter {p : α → Bool} : a ∈ s.filter p ↔ a ∈ s ∧ p a := List.mem_filter

/-! ## Images -/

/-- The values of `f` on the elements. -/
def image (f : α → β) (s : SortedSet α) : SortedSet β := ofList (s.toList.map f)

@[simp] theorem mem_image {f : α → β} {b : β} : b ∈ s.image f ↔ ∃ a ∈ s, f a = b := by
  simp only [image, mem_ofList, List.mem_map, mem_toList]

/-- The union of the sets `f a` over the elements `a`. -/
def bind (s : SortedSet α) (f : α → SortedSet β) : SortedSet β :=
  ofList (s.toList.flatMap fun a => (f a).toList)

@[simp] theorem mem_bind {f : α → SortedSet β} {b : β} : b ∈ s.bind f ↔ ∃ a ∈ s, b ∈ f a := by
  simp only [bind, mem_ofList, List.mem_flatMap, mem_toList]

/-! ## Questions -/

/-- Whether there is no element. -/
def isEmpty (s : SortedSet α) : Bool := s.elements.isEmpty

theorem isEmpty_iff : s.isEmpty ↔ ∀ a, a ∉ s := by
  rw [isEmpty, ← Array.isEmpty_toList, List.isEmpty_iff]
  exact List.eq_nil_iff_forall_not_mem

/-- Whether some element is in both sets. -/
def meets (s t : SortedSet α) : Bool := s.toList.any fun a => a ∈ t

theorem meets_iff : s.meets t ↔ ∃ a ∈ s, a ∈ t := by
  simp [meets, mem_toList]

/-- A search in order finds the value of the least element that has one. -/
theorem findSome?_toList_eq_some_iff {f : α → Option γ} {c : γ} :
    s.toList.findSome? f = some c ↔
      ∃ a ∈ s, f a = some c ∧ ∀ b ∈ s, Below b a → f b = none := by
  simpa only [mem_toList] using findSome?_eq_some_iff_of_pairwise s.sorted fun _ _ => Below.asymm

/-- A search in order finds the least element that passes. -/
theorem find?_toList_eq_some_iff {test : α → Bool} : s.toList.find? test = some a ↔
    a ∈ s ∧ test a ∧ ∀ b ∈ s, Below b a → ¬ test b := by
  rw [List.find?_eq_findSome?_guard, findSome?_toList_eq_some_iff]
  simp only [Option.guard_eq_some_iff, Option.guard_eq_none_iff, Bool.not_eq_true]
  constructor
  · rintro ⟨_, hmem, ⟨rfl, htest⟩, hleast⟩
    exact ⟨hmem, htest, hleast⟩
  · rintro ⟨hmem, htest, hleast⟩
    exact ⟨a, hmem, ⟨rfl, htest⟩, hleast⟩

theorem nodup (s : SortedSet α) : s.toList.Nodup := s.sorted.imp Below.ne

theorem length_toList (s : SortedSet α) : s.toList.length = s.size := Array.length_toList

/-- A set has as many elements as a listing of it without repetitions. -/
theorem size_eq_of_nodup {l : List α} (hl : l.Nodup) (h : ∀ a, a ∈ s ↔ a ∈ l) :
    s.size = l.length := by
  have hperm : s.toList.Perm l := (List.perm_ext_iff_of_nodup s.nodup hl).mpr h
  rw [← length_toList, hperm.length_eq]

end SortedSet

end LanguageTheory
