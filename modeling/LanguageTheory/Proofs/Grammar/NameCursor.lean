import LanguageTheory.Proofs.Grammar.NameDemand

/-!
# Taking names with a cursor

A cursor goes through the characters by code point, over the gap of the surrogates, up to the last
one. It gives out the upper-case characters on its way that are not taken, and marks them as taken.
What it has still to give is a list of names (`NameCursor.unused`), from which every call takes the
first one (`NameCursor.allocate_spec`), so its calls have the outcomes of calls that take names off
that list: the least free names in order, then failures for good (`Grammar.allocate_exact`).
-/

namespace LanguageTheory

/-! ## The character after another one -/

/-- The character with a code point; surrogates have none. -/
def charOfCode? (code : Nat) : Option Char :=
  if h : code.isValidChar then some (Char.ofNatAux code h) else none

/-- The character after another one: that of the first code point after it which has one. -/
def nextChar? (c : Char) : Option Char :=
  (List.range' (c.toNat + 1) (0x10FFFF - c.toNat)).findSome? charOfCode?

section NextChar

variable {c d : Char} {code : Nat}

theorem char_le_iff : c ≤ d ↔ c.toNat ≤ d.toNat := Iff.rfl

theorem char_le_iff_eq_or_lt : c ≤ d ↔ c = d ∨ c < d := by
  rw [char_le_iff, char_lt_iff, ← Char.toNat_inj, Nat.le_iff_lt_or_eq, or_comm]

theorem char_toNat_le (c : Char) : c.toNat ≤ 0x10FFFF := by
  have hvalid : c.toNat.isValidChar := c.valid
  unfold Nat.isValidChar at hvalid
  omega

theorem charOfCode?_eq_some_iff : charOfCode? code = some c ↔ c.toNat = code := by
  by_cases hvalid : code.isValidChar
  · rw [charOfCode?, dif_pos hvalid, Option.some_inj, ← Char.toNat_inj, eq_comm]
    rfl
  · rw [charOfCode?, dif_neg hvalid]
    refine iff_of_false (fun h => Option.some_ne_none c h.symm) ?_
    intro hcode
    exact hvalid (hcode ▸ c.valid)

/-- What is not below the next character is what comes after the character. -/
theorem exists_nextChar?_le_iff : (∃ e ∈ nextChar? c, e ≤ d) ↔ c < d := by
  have hsearch := fun e => findSome?_eq_some_iff_of_pairwise (f := charOfCode?) (b := e)
    (List.pairwise_lt_range' (s := c.toNat + 1) (n := 0x10FFFF - c.toNat)) fun _ _ => Nat.lt_asymm
  constructor
  · rintro ⟨e, he, hed⟩
    obtain ⟨code, hcode, hvalue, _⟩ := (hsearch e).mp he
    rw [charOfCode?_eq_some_iff] at hvalue
    rw [List.mem_range'_1] at hcode
    rw [char_le_iff] at hed
    rw [char_lt_iff]
    omega
  · intro hlt
    have hd : d.toNat ∈ List.range' (c.toNat + 1) (0x10FFFF - c.toNat) := by
      have hbound := char_toNat_le d
      rw [char_lt_iff] at hlt
      rw [List.mem_range'_1]
      omega
    have hvalue : charOfCode? d.toNat = some d := charOfCode?_eq_some_iff.mpr rfl
    have hsome : (nextChar? c).isSome :=
      List.findSome?_isSome_iff.mpr ⟨d.toNat, hd, Option.isSome_of_eq_some hvalue⟩
    obtain ⟨e, he⟩ := Option.isSome_iff_exists.mp hsome
    obtain ⟨code, _, hcode, hleast⟩ := (hsearch e).mp he
    refine ⟨e, he, Char.not_lt.mp ?_⟩
    intro hde
    rw [char_lt_iff, charOfCode?_eq_some_iff.mp hcode] at hde
    have hnone := hleast d.toNat hd hde
    exact Option.some_ne_none d (hvalue.symm.trans hnone)

example : nextChar? '\uD7FF' = some '\uE000' := by decide +kernel

theorem lt_of_nextChar?_eq_some (h : nextChar? c = some d) : c < d :=
  exists_nextChar?_le_iff.mp ⟨d, h, Char.le_refl d⟩

end NextChar

/-! ## Calls -/

/-- The outcomes of calls one after another, each on the state that the call before it has left. -/
def outcomes {σ α : Type} (call : σ → α × σ) : Nat → σ → List α
  | 0, _ => []
  | k + 1, s => (call s).1 :: outcomes call k (call s).2

/-- A view of the state that goes with every call has the same outcomes. -/
theorem outcomes_map {σ τ α : Type} {call : σ → α × σ} {viewCall : τ → α × τ} {view : σ → τ}
    (hcall : ∀ s, viewCall (view s) = (call s).map id view) (k : Nat) (s : σ) :
    outcomes viewCall k (view s) = outcomes call k s := by
  induction k generalizing s with
  | zero => rfl
  | succ k ih =>
      rw [outcomes, outcomes, hcall]
      exact congrArg _ (ih (call s).2)

/-- Takes the least free name; a call that fails leaves the names as they are. -/
def FreshNames.call (names : FreshNames) : Except GrammarFault Char × FreshNames :=
  match names.allocate with
  | .ok (name, rest) => (.ok name, rest)
  | .error fault => (.error fault, names)

/-- The names come in order, and when they are used up every call fails. -/
theorem FreshNames.outcomes_call (names : FreshNames) (k : Nat) :
    outcomes FreshNames.call k names = (names.unused.take k).map .ok ++
      List.replicate (k - names.unused.length) (.error .variablesExhausted) := by
  obtain ⟨l⟩ := names
  induction k generalizing l with
  | zero => simp [outcomes]
  | succ k ih =>
      cases l with
      | nil => simpa [outcomes, call, allocate, List.replicate_succ] using ih []
      | cons c l => simpa [outcomes, call, allocate] using ih l

/-! ## The cursor -/

/-- The next character to look at, and the characters that must not be given out. -/
structure NameCursor where
  next : Option Char
  taken : SortedSet Char

namespace NameCursor

variable {cursor : NameCursor} {taken : SortedSet Char} {c d : Char}

/-- How many code points there are from the next character on. -/
def ahead : NameCursor → Nat
  | ⟨none, _⟩ => 0
  | ⟨some c, _⟩ => 0x110000 - c.toNat

theorem ahead_lt : ahead ⟨nextChar? c, taken⟩ < ahead ⟨some c, taken⟩ := by
  have hc := char_toNat_le c
  cases hnext : nextChar? c with
  | none =>
      simp only [ahead]
      omega
  | some d =>
      have hlt := lt_of_nextChar?_eq_some hnext
      rw [char_lt_iff] at hlt
      simp only [ahead]
      omega

/-- Goes on to the next upper-case character that is not taken, and takes it. -/
def allocate : NameCursor → Except GrammarFault Char × NameCursor
  | ⟨none, taken⟩ => (.error .variablesExhausted, ⟨none, taken⟩)
  | ⟨some candidate, taken⟩ =>
      if Uppercase.isUppercase candidate ∧ candidate ∉ taken then
        (.ok candidate, ⟨nextChar? candidate, insert candidate taken⟩)
      else allocate ⟨nextChar? candidate, taken⟩
termination_by cursor => cursor.ahead
decreasing_by exact ahead_lt

/-- The names that the cursor has still to give. -/
def names (cursor : NameCursor) : FreshNames :=
  ⟨Uppercase.all.filter fun c => c ∉ cursor.taken ∧ cursor.next.any (· ≤ c)⟩

theorem mem_names : d ∈ cursor.names.unused ↔
    Uppercase.isUppercase d ∧ d ∉ cursor.taken ∧ ∃ c ∈ cursor.next, c ≤ d := by
  simp [names, Uppercase.mem_all, Option.any_eq_true]

theorem mem_names_some : d ∈ (names ⟨some c, taken⟩).unused ↔
    Uppercase.isUppercase d ∧ d ∉ taken ∧ c ≤ d := by
  simp [mem_names]

theorem mem_names_nextChar? : d ∈ (names ⟨nextChar? c, taken⟩).unused ↔
    Uppercase.isUppercase d ∧ d ∉ taken ∧ c < d := by
  rw [mem_names, exists_nextChar?_le_iff]

theorem sorted_names (cursor : NameCursor) : cursor.names.unused.Pairwise Below := by
  have hall : Uppercase.all.Pairwise Below := Uppercase.pairwise_all.imp Below.char_iff.mpr
  dsimp only [names]
  exact hall.filter _

/-- A candidate that may be given out is the first of the names. -/
theorem names_take (htake : Uppercase.isUppercase c ∧ c ∉ taken) :
    names ⟨some c, taken⟩ = ⟨c :: (names ⟨nextChar? c, insert c taken⟩).unused⟩ := by
  apply congrArg FreshNames.mk
  apply SortedSet.eq_of_pairwise (sorted_names _)
  · refine List.pairwise_cons.mpr ⟨?_, sorted_names _⟩
    intro d hd
    exact Below.char_iff.mpr (mem_names_nextChar?.mp hd).2.2
  · intro d
    rw [mem_names_some, List.mem_cons, mem_names_nextChar?, char_le_iff_eq_or_lt]
    by_cases hcandidate : d = c
    · simp [hcandidate, htake]
    · simp [hcandidate, Ne.symm hcandidate]

/-- Any other candidate is none of the names. -/
theorem names_skip (hskip : ¬ (Uppercase.isUppercase c ∧ c ∉ taken)) :
    names ⟨some c, taken⟩ = names ⟨nextChar? c, taken⟩ := by
  apply congrArg FreshNames.mk
  apply SortedSet.eq_of_pairwise (sorted_names _) (sorted_names _)
  intro d
  rw [mem_names_some, mem_names_nextChar?, char_le_iff_eq_or_lt]
  by_cases hcandidate : c = d
  · subst hcandidate
    simpa using hskip
  · simp [hcandidate]

/-- A call takes the first of the names that the cursor has still to give. -/
theorem call_names (cursor : NameCursor) : cursor.names.call = cursor.allocate.map id names := by
  fun_induction allocate cursor with
  | case1 taken => simp [names, FreshNames.call, FreshNames.allocate]
  | case2 candidate taken htake => simp [names_take htake, FreshNames.call, FreshNames.allocate]
  | case3 candidate taken hskip ih => rw [names_skip hskip, ih]

end NameCursor

/-! ## The names of a grammar -/

theorem Uppercase.le_of_isUppercase {c : Char} (hc : isUppercase c) : 'A' ≤ c := by
  have hfirst : ∀ r ∈ ranges, 'A'.toNat ≤ r.first := by decide +kernel
  obtain ⟨r, hr, hin⟩ := List.any_eq_true.mp hc
  simp only [CharRange.contains, Bool.and_eq_true, decide_eq_true_eq] at hin
  exact char_le_iff.mpr (Nat.le_trans (hfirst r hr) hin.1.1)

namespace Grammar

/-- A cursor before the first upper-case character, with all symbols of the grammar taken. -/
def nameCursor (g : Grammar) : NameCursor := ⟨some 'A', g.terminals ∪ g.vars⟩

theorem names_nameCursor (g : Grammar) : g.nameCursor.names = g.freshNames := by
  apply congrArg FreshNames.mk
  apply List.filter_congr
  intro c hc
  have hle := Uppercase.le_of_isUppercase (Uppercase.mem_all.mp hc)
  simp [nameCursor, hle]

/-- Calls on a cursor give the free names of the grammar in increasing order, each once, and fail
when all have been given. So do calls that take names off the list of the free ones. -/
theorem allocate_exact (g : Grammar) :
    ∃ names : List Char, names.Pairwise (· < ·) ∧ (∀ c, c ∈ names ↔ c ∈ g.freeNames) ∧
      ∀ k, outcomes NameCursor.allocate k g.nameCursor = (names.take k).map .ok ++
          List.replicate (k - names.length) (.error .variablesExhausted) ∧
        outcomes FreshNames.call k g.freshNames = outcomes NameCursor.allocate k g.nameCursor := by
  have hsame (k : Nat) : outcomes FreshNames.call k g.freshNames =
      outcomes NameCursor.allocate k g.nameCursor := by
    rw [← names_nameCursor]
    exact outcomes_map NameCursor.call_names k g.nameCursor
  refine ⟨g.unusedNames, g.pairwise_unusedNames, fun c => mem_unusedNames, ?_⟩
  intro k
  refine ⟨?_, hsame k⟩
  rw [← hsame k]
  exact g.freshNames.outcomes_call k

end Grammar

end LanguageTheory
