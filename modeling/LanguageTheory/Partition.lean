import LanguageTheory.TotalOrd
import LanguageTheory.Counting
import Std.Data.TreeMap

/-!
# Partitions

The numbers below a bound are divided into classes, and a class is known by its least member, its
leader. Dividing by a key puts the numbers of equal keys into one class (`leader_byKey_eq_iff`). A
finer partition has more leaders, so a partition can be refined only so often (`followers_lt`).
-/

universe u

namespace LanguageTheory

/-- The numbers below `n` in classes, each number with the least member of its class. -/
structure Partition (n : Nat) where
  leaders : Vector (Fin n) n
  le_self : ∀ p : Fin n, leaders[p] ≤ p
  idempotent : ∀ p : Fin n, leaders[leaders[p]] = leaders[p]
deriving DecidableEq

namespace Partition

variable {n : Nat} {κ : Type u} [TotalOrd κ] {key : Fin n → κ} {p q : Fin n} {P Q : Partition n}

/-- The least member of a number's class. -/
def leader (P : Partition n) (p : Fin n) : Fin n := P.leaders[p]

theorem leader_le : P.leader p ≤ p := P.le_self p

theorem leader_leader : P.leader (P.leader p) = P.leader p := P.idempotent p

/-- A partition is determined by its leaders. -/
theorem ext (h : ∀ p, P.leader p = Q.leader p) : P = Q := by
  obtain ⟨leaders, _, _⟩ := P
  obtain ⟨leaders', _, _⟩ := Q
  simp only [mk.injEq]
  exact Vector.ext fun i hi => h ⟨i, hi⟩

/-! ## Classes of equal keys -/

/-- The first number of each key in a list, unless an earlier one is known. -/
def addFirsts (key : Fin n → κ) (firsts : Std.TreeMap κ (Fin n)) (l : List (Fin n)) :
    Std.TreeMap κ (Fin n) :=
  l.foldl (fun firsts p => firsts.insertIfNew (key p) p) firsts

theorem getElem?_addFirsts {firsts : Std.TreeMap κ (Fin n)} {l : List (Fin n)} {k : κ} :
    (addFirsts key firsts l)[k]? = firsts[k]?.or (l.find? fun p => key p = k) := by
  induction l generalizing firsts with
  | nil => simp [addFirsts]
  | cons p l ih =>
      have hstep : addFirsts key firsts (p :: l) = addFirsts key (firsts.insertIfNew (key p) p) l :=
        rfl
      rw [hstep, ih, Std.TreeMap.getElem?_insertIfNew]
      by_cases hk : key p = k
      · subst hk
        by_cases hmem : key p ∈ firsts
        · simp [hmem]
        · simp [hmem]
      · simp [hk]

/-- The first number of each key. -/
def firsts (key : Fin n → κ) : Std.TreeMap κ (Fin n) := addFirsts key ∅ (List.finRange n)

/-- The first number with the key of `p` is no later than any number with that key. -/
theorem exists_first (key : Fin n → κ) (p : Fin n) :
    ∃ first, (firsts key)[key p]? = some first ∧ key first = key p ∧
      ∀ q, key q = key p → first ≤ q := by
  rw [firsts, getElem?_addFirsts, Std.TreeMap.getElem?_emptyc, Option.none_or]
  cases hfind : (List.finRange n).find? fun q => key q = key p with
  | none => simpa using List.find?_eq_none.mp hfind p (List.mem_finRange p)
  | some first =>
      refine ⟨first, rfl, by simpa using List.find?_some hfind, fun q hq => ?_⟩
      obtain ⟨_, i, hi, rfl, hbefore⟩ := List.find?_eq_some_iff_getElem.mp hfind
      refine Fin.not_lt.mp fun hlt => ?_
      have hearlier := hbefore q (by simpa [Fin.lt_def] using hlt)
      simp [hq] at hearlier

/-- The numbers of one key are put into one class. -/
def byKey (key : Fin n → κ) : Partition n :=
  let firsts := firsts key
  { leaders := .ofFn fun p => firsts[key p]?.getD p
    le_self := fun p => by
      obtain ⟨first, hfirst, _, hleast⟩ := exists_first key p
      simpa [firsts, hfirst] using hleast p rfl
    idempotent := fun p => by
      obtain ⟨first, hfirst, hkey, _⟩ := exists_first key p
      simp [firsts, hfirst, hkey] }

theorem leader_byKey : (byKey key).leader p = (firsts key)[key p]?.getD p := by
  simp [byKey, leader]

/-- Two numbers are in one class when they have one key. -/
theorem leader_byKey_eq_iff : (byKey key).leader p = (byKey key).leader q ↔ key p = key q := by
  obtain ⟨first, hfirst, hkey, _⟩ := exists_first key p
  obtain ⟨first', hfirst', hkey', _⟩ := exists_first key q
  rw [leader_byKey, leader_byKey, hfirst, hfirst', Option.getD_some, Option.getD_some]
  constructor
  · rintro rfl
    exact hkey.symm.trans hkey'
  · intro hpq
    rw [hpq] at hfirst
    exact Option.some.inj (hfirst.symm.trans hfirst')

/-! ## Leaders -/

/-- The numbers that lead their classes, in order. -/
def leaderList (P : Partition n) : List (Fin n) :=
  (List.finRange n).filter fun p => P.leader p = p

theorem mem_leaderList : p ∈ P.leaderList ↔ P.leader p = p := by
  simp [leaderList, List.mem_finRange]

/-- How many numbers lead no class. -/
def followers (P : Partition n) : Nat :=
  ((List.finRange n).filter fun p => P.leader p ≠ p).length

/-- Dividing classes makes new leaders and keeps the old ones. -/
theorem followers_lt (hfiner : ∀ p q, Q.leader p = Q.leader q → P.leader p = P.leader q)
    (hne : Q ≠ P) : Q.followers < P.followers := by
  obtain ⟨p, hp⟩ : ∃ p, Q.leader p ≠ P.leader p := Classical.byContradiction fun hall =>
    hne (ext fun p => Classical.byContradiction fun hp => hall ⟨p, hp⟩)
  refine length_filter_lt (fun r hr => ?_) (List.mem_finRange (Q.leader p)) ?_ ?_
  · simp only [ne_eq, decide_eq_true_eq] at hr ⊢
    refine fun hlead => hr (Fin.le_antisymm leader_le ?_)
    calc r = P.leader r := hlead.symm
      _ = P.leader (Q.leader r) := (hfiner (Q.leader r) r leader_leader).symm
      _ ≤ Q.leader r := leader_le
  · have hsame := hfiner (Q.leader p) p leader_leader
    simpa [hsame] using hp.symm
  · simp [leader_leader]

end Partition

end LanguageTheory
