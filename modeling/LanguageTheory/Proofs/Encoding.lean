import LanguageTheory.Alphabet

/-!
# Answers on encoded words

An automaton answers a word by a test of its letters, or by the first symbol that has no letter.
Such answers are determined by the words on which they are positive, and by the alphabet.
-/

namespace LanguageTheory.Alphabet

variable {α : Type} [TotalOrd α] {A B : Alphabet α} {w : List α} {a : α}

theorem decode_inj {u v : List (Letter A)} (h : decode A u = decode A v) : u = v := by
  have hu := encode_eq_ok_iff.mpr h
  rw [encode_eq_ok_iff.mpr rfl] at hu
  exact (Except.ok.inj hu).symm

theorem exists_decode_iff : (∃ letters, decode A letters = w) ↔ ∀ a ∈ w, a ∈ A := by
  constructor
  · rintro ⟨letters, rfl⟩ a ha
    obtain ⟨letter, _, rfl⟩ := List.mem_map.mp ha
    exact A.get_mem letter
  · intro hw
    induction w with
    | nil => exact ⟨[], rfl⟩
    | cons a w ih =>
        obtain ⟨letter, rfl⟩ := SortedSet.exists_get_eq (hw a List.mem_cons_self)
        obtain ⟨letters, rfl⟩ := ih fun b hb => hw b (List.mem_cons_of_mem _ hb)
        exact ⟨letter :: letters, rfl⟩

/-! ## Foreign symbols -/

/-- The first symbol of a word that is not in the alphabet, and how many symbols stand before it. -/
def IsFirstForeign (A : Alphabet α) (w : List α) (fault : ForeignSymbol α) : Prop :=
  ∃ before after, w = before ++ fault.symbol :: after ∧ (∀ a ∈ before, a ∈ A) ∧
    fault.symbol ∉ A ∧ before.length = fault.position

theorem encodeFrom_cons_of_not_mem {position : Nat} (ha : a ∉ A) :
    encodeFrom A position (a :: w) = .error ⟨a, position⟩ := by
  rw [encodeFrom, SortedSet.rank?_eq_none_iff.mpr ha]

/-- A symbol of the alphabet is passed over. -/
theorem encodeFrom_cons_eq_error_iff {position : Nat} {fault : ForeignSymbol α} (ha : a ∈ A) :
    encodeFrom A position (a :: w) = .error fault ↔
      encodeFrom A (position + 1) w = .error fault := by
  obtain ⟨letter, hletter⟩ := Option.isSome_iff_exists.mp (SortedSet.isSome_rank?_iff.mpr ha)
  simp only [encodeFrom, hletter]
  cases encodeFrom A (position + 1) w <;> simp [Except.map]

theorem encodeFrom_append_of_not_mem {position : Nat} {before after : List α}
    (hbefore : ∀ b ∈ before, b ∈ A) (ha : a ∉ A) :
    encodeFrom A position (before ++ a :: after) = .error ⟨a, position + before.length⟩ := by
  induction before generalizing position with
  | nil => exact encodeFrom_cons_of_not_mem ha
  | cons b before ih =>
      obtain ⟨hb, hbefore⟩ := List.forall_mem_cons.mp hbefore
      rw [List.cons_append, encodeFrom_cons_eq_error_iff hb, ih hbefore, List.length_cons,
        Nat.add_assoc, Nat.add_comm 1]

theorem exists_first_of_not_forall_mem (hw : ¬ ∀ a ∈ w, a ∈ A) :
    ∃ before a after, w = before ++ a :: after ∧ (∀ b ∈ before, b ∈ A) ∧ a ∉ A := by
  cases hfind : w.find? (· ∉ A) with
  | none => exact absurd (by simpa using hfind) hw
  | some a =>
      obtain ⟨ha, before, after, hsplit, hbefore⟩ := List.find?_eq_some_iff_append.mp hfind
      exact ⟨before, a, after, hsplit, by simpa using hbefore, by simpa using ha⟩

/-- A word that is not encoded has a first foreign symbol, which is reported. -/
theorem encode_eq_error_iff {fault : ForeignSymbol α} :
    encode A w = .error fault ↔ IsFirstForeign A w fault := by
  constructor
  · intro h
    have hforeign : ¬ ∀ a ∈ w, a ∈ A := by
      intro hw
      obtain ⟨letters, hletters⟩ := exists_decode_iff.mpr hw
      rw [encode_eq_ok_iff.mpr hletters] at h
      cases h
    obtain ⟨before, a, after, rfl, hbefore, ha⟩ := exists_first_of_not_forall_mem hforeign
    rw [encode, encodeFrom_append_of_not_mem hbefore ha, Nat.zero_add] at h
    cases h
    exact ⟨before, after, rfl, hbefore, ha, rfl⟩
  · rintro ⟨before, after, rfl, hbefore, hsymbol, hposition⟩
    rw [encode, encodeFrom_append_of_not_mem hbefore hsymbol, Nat.zero_add, hposition]

/-! ## Tests -/

theorem map_encode_eq_error_iff {test : List (Letter A) → Bool} {fault : ForeignSymbol α} :
    (encode A w).map test = .error fault ↔ IsFirstForeign A w fault := by
  rw [← encode_eq_error_iff]
  cases encode A w <;> simp [Except.map]

theorem map_encode_eq_ok_iff {test : List (Letter A) → Bool} {b : Bool} :
    (encode A w).map test = .ok b ↔ ∃ letters, decode A letters = w ∧ test letters = b := by
  cases hencode : encode A w with
  | error fault =>
      refine iff_of_false (fun h => by cases h) ?_
      rintro ⟨letters, hdecode, _⟩
      rw [encode_eq_ok_iff.mpr hdecode] at hencode
      cases hencode
  | ok letters =>
      have hdecode := encode_eq_ok_iff.mp hencode
      rw [Except.map, Except.ok.injEq]
      constructor
      · intro htest
        exact ⟨letters, hdecode, htest⟩
      · rintro ⟨others, hothers, htest⟩
        rwa [decode_inj (hdecode.trans hothers.symm)]

/-- Words over the alphabet are answered, and the positive answers tell which way. -/
theorem map_encode_eq_ok_iff_forall_mem {test : List (Letter A) → Bool} {b : Bool} :
    (encode A w).map test = .ok b ↔
      (∀ a ∈ w, a ∈ A) ∧ (b ↔ (encode A w).map test = .ok true) := by
  rw [← exists_decode_iff]
  constructor
  · intro h
    obtain ⟨letters, hletters, _⟩ := map_encode_eq_ok_iff.mp h
    rw [h, Except.ok.injEq]
    exact ⟨⟨letters, hletters⟩, Iff.rfl⟩
  · rintro ⟨⟨letters, hletters⟩, hb⟩
    have hanswer : (encode A w).map test = .ok (test letters) :=
      map_encode_eq_ok_iff.mpr ⟨letters, hletters, rfl⟩
    rw [hanswer, Except.ok.injEq] at hb
    rw [hanswer, Bool.eq_iff_iff.mpr hb]

theorem map_encode_congr {first : List (Letter A) → Bool} {second : List (Letter B) → Bool}
    (halphabet : B = A)
    (h : (encode B w).map second = .ok true ↔ (encode A w).map first = .ok true) :
    (encode B w).map second = (encode A w).map first := by
  subst halphabet
  cases hencode : encode B w with
  | error fault => rfl
  | ok letters =>
      rw [hencode] at h
      simp only [Except.map, Except.ok.injEq] at h ⊢
      exact Bool.eq_iff_iff.mpr h

end LanguageTheory.Alphabet
