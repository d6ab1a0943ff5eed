import LanguageTheory.Proofs.Encoding
import Mathlib.Data.List.Destutter
import Mathlib.Data.Set.Card
import Mathlib.Order.Interval.Finset.Fin

/-!
# Ranks of symbols

The alphabet of a list is the list in order with repetitions left out (`toList_ofList`), so lists of
the same symbols have the same alphabet. The letter of a symbol is the number of symbols below it
(`ncard_lesser`). A word is encoded by these numbers, or refused for its first symbol that is not
listed (`ranks_exact`).
-/

namespace LanguageTheory

namespace SortedSet

variable {α : Type} [TotalOrd α] {s : SortedSet α} {l : List α} {a b : α}

/-! ## Lists in order -/

/-- Puts a list in order and leaves out whatever equals its neighbour on the left. -/
def sortedOnce (l : List α) : List α :=
  (l.mergeSort fun a b => (compare a b).isLE).destutter (· ≠ ·)

theorem pairwise_mergeSort (l : List α) :
    (l.mergeSort fun a b => (compare a b).isLE).Pairwise fun a b => (compare a b).isLE := by
  apply List.pairwise_mergeSort
  · exact fun _ _ _ => Std.TransCmp.isLE_trans
  · intro a b
    rw [Std.OrientedOrd.eq_swap]
    cases compare b a <;> rfl

/-- In a list in order, equal elements are neighbours. -/
theorem sortedOnce_eq_dedup (l : List α) :
    sortedOnce l = (l.mergeSort fun a b => (compare a b).isLE).dedup := by
  have hantisymm : Std.Antisymm fun a b : α => (compare a b).isLE = true :=
    ⟨fun _ _ hab hba => Std.compare_eq_iff_eq.mp (Std.OrientedCmp.isLE_antisymm hab hba)⟩
  exact (pairwise_mergeSort l).destutter_eq_dedup

theorem mem_sortedOnce : a ∈ sortedOnce l ↔ a ∈ l := by
  rw [sortedOnce_eq_dedup, List.mem_dedup, List.mem_mergeSort]

/-- A list in order without repetitions increases. -/
theorem pairwise_below_of_nodup (hsorted : l.Pairwise fun a b => (compare a b).isLE)
    (hnodup : l.Nodup) : l.Pairwise Below := by
  refine List.Pairwise.imp₂ ?_ hsorted hnodup
  intro a b hle hne
  exact (Ordering.isLE_iff_eq_lt_or_eq_eq.mp hle).resolve_right fun heq =>
    hne (Std.compare_eq_iff_eq.mp heq)

theorem pairwise_sortedOnce (l : List α) : (sortedOnce l).Pairwise Below := by
  rw [sortedOnce_eq_dedup]
  have hsorted := (pairwise_mergeSort l).sublist (List.dedup_sublist _)
  exact pairwise_below_of_nodup hsorted (List.nodup_dedup _)

theorem toList_ofList (l : List α) : (ofList l).toList = sortedOnce l :=
  eq_of_pairwise (ofList l).sorted (pairwise_sortedOnce l) fun _ =>
    mem_ofList.trans mem_sortedOnce.symm

theorem ofList_eq_iff {m : List α} : ofList l = ofList m ↔ ∀ a, a ∈ l ↔ a ∈ m := by
  constructor
  · intro h a
    rw [← mem_ofList, h, mem_ofList]
  · intro h
    apply ext
    intro a
    rw [mem_ofList, mem_ofList, h]

/-! ## Ranks -/

/-- The elements of a list that are below `a`, however often they are listed. -/
def lesser (l : List α) (a : α) : Set α := {b | b ∈ l ∧ Below b a}

/-- As many elements are below an element as its rank says. -/
theorem ncard_lesser (i : Fin s.size) : (lesser s.toList (s.get i)).ncard = i := by
  have himage : lesser s.toList (s.get i) = s.get '' (Finset.Iio i : Finset (Fin s.size)) := by
    ext b
    rw [Finset.coe_Iio, Set.mem_image]
    constructor
    · rintro ⟨hb, hbelow⟩
      obtain ⟨j, rfl⟩ := exists_get_eq hb
      exact ⟨j, get_below_get_iff.mp hbelow, rfl⟩
    · rintro ⟨j, hj, rfl⟩
      exact ⟨s.get_mem j, get_lt_get hj⟩
  rw [himage, Set.ncard_image_of_injective _ fun _ _ => get_inj, Set.ncard_coe_finset, Fin.card_Iio]

theorem lesser_toList_ofList (l : List α) (a : α) : lesser (ofList l).toList a = lesser l a := by
  ext b
  exact and_congr_left' mem_ofList

theorem map_rank?_eq_some_iff {i : Nat} :
    (s.rank? a).map Fin.val = some i ↔ a ∈ s ∧ i = (lesser s.toList a).ncard := by
  rw [Option.map_eq_some_iff]
  constructor
  · rintro ⟨letter, hrank, rfl⟩
    obtain rfl := rank?_eq_some_iff.mp hrank
    exact ⟨s.get_mem letter, (ncard_lesser letter).symm⟩
  · rintro ⟨ha, rfl⟩
    obtain ⟨letter, rfl⟩ := exists_get_eq ha
    exact ⟨letter, rank?_eq_some_iff.mpr rfl, (ncard_lesser letter).symm⟩

end SortedSet

namespace Alphabet

open SortedSet

variable {α : Type} [TotalOrd α] {A : Alphabet α} {word : List α}

/-! ## Words -/

theorem exists_encode_eq_ok_iff :
    (∃ letters, encode A word = .ok letters) ↔ ∀ a ∈ word, a ∈ A := by
  rw [← exists_decode_iff]
  exact exists_congr fun _ => encode_eq_ok_iff

/-- The symbols that letters stand for have these letters as their ranks. -/
theorem map_lesser_decode (letters : List (Letter A)) :
    (decode A letters).map (fun a => (lesser A.toList a).ncard) = letters.map Fin.val := by
  rw [decode, List.map_map]
  apply List.map_congr_left
  intro letter _
  exact ncard_lesser letter

/-- The letters of a word are the ranks of its symbols. -/
theorem encode_eq_ok_iff_map_eq {letters : List (Letter A)} :
    encode A word = .ok letters ↔ (∀ a ∈ word, a ∈ A) ∧
      letters.map Fin.val = word.map fun a => (lesser A.toList a).ncard := by
  rw [encode_eq_ok_iff]
  constructor
  · rintro rfl
    exact ⟨exists_decode_iff.mp ⟨letters, rfl⟩, (map_lesser_decode letters).symm⟩
  · rintro ⟨hword, hletters⟩
    obtain ⟨others, rfl⟩ := exists_decode_iff.mpr hword
    -- ranks determine letters
    rw [map_lesser_decode] at hletters
    rw [List.map_injective_iff.mpr Fin.val_injective hletters]

/-- Whatever the order and the repetitions of a list, its alphabet has its symbols in increasing order,
and so is the same for lists of the same symbols. A symbol is found there if it is listed, at the
number of listed symbols below it. A word of listed symbols is encoded by their numbers, and any other
word is refused for its first symbol that is not listed. -/
theorem ranks_exact (symbols : List α) :
    (ofList symbols).toList = sortedOnce symbols ∧
    (ofList symbols).toList.Pairwise Below ∧
    (∀ a, a ∈ (ofList symbols).toList ↔ a ∈ symbols) ∧
    (∀ others, ofList symbols = ofList others ↔ ∀ a, a ∈ symbols ↔ a ∈ others) ∧
    (∀ a i, ((ofList symbols).rank? a).map Fin.val = some i ↔
      a ∈ symbols ∧ i = (lesser symbols a).ncard) ∧
    (∀ a i, (ofList symbols).rank? a = some i ↔ (ofList symbols).get i = a) ∧
    (∀ a, (ofList symbols).rank? a = none ↔ a ∉ symbols) ∧
    ∀ word : List α,
      ((∃ letters, encode (ofList symbols) word = .ok letters) ↔ ∀ a ∈ word, a ∈ symbols) ∧
      (∀ letters, encode (ofList symbols) word = .ok letters ↔ (∀ a ∈ word, a ∈ symbols) ∧
        letters.map Fin.val = word.map fun a => (lesser symbols a).ncard) ∧
      ∀ fault, encode (ofList symbols) word = .error fault ↔
        ∃ before after, word = before ++ fault.symbol :: after ∧ (∀ a ∈ before, a ∈ symbols) ∧
          fault.symbol ∉ symbols ∧ before.length = fault.position := by
  refine ⟨toList_ofList symbols, (ofList symbols).sorted, fun _ => mem_ofList,
    fun _ => ofList_eq_iff, ?_, fun _ _ => rank?_eq_some_iff, ?_, ?_⟩
  · intro a i
    rw [map_rank?_eq_some_iff, lesser_toList_ofList, mem_ofList]
  · intro a
    rw [rank?_eq_none_iff, mem_ofList]
  · intro word
    refine ⟨?_, ?_, ?_⟩
    · simp only [exists_encode_eq_ok_iff, mem_ofList]
    · intro letters
      simp only [encode_eq_ok_iff_map_eq, lesser_toList_ofList, mem_ofList]
    · intro fault
      simp only [encode_eq_error_iff, IsFirstForeign, mem_ofList]

theorem ranks_exact_cabca :
    sortedOnce ['c', 'a', 'b', 'c', 'a'] = ['a', 'b', 'c'] ∧
      (lesser ['c', 'a', 'b', 'c', 'a'] 'c').ncard = 2 ∧
      encode (ofList ['c', 'a', 'b', 'c', 'a']) ['a', 'b', 'x', 'c', 'y'] = .error ⟨'x', 2⟩ := by
  obtain ⟨hsorted, _, _, _, hranks, _, _, hwords⟩ := ranks_exact ['c', 'a', 'b', 'c', 'a']
  refine ⟨?_, ?_, ?_⟩
  · rw [← hsorted]
    decide
  · have hfound : ((ofList ['c', 'a', 'b', 'c', 'a']).rank? 'c').map Fin.val = some 2 := by decide
    exact ((hranks 'c' 2).mp hfound).2.symm
  · obtain ⟨_, _, hrefused⟩ := hwords ['a', 'b', 'x', 'c', 'y']
    exact (hrefused ⟨'x', 2⟩).mpr ⟨['a', 'b'], ['c', 'y'], rfl, by simp, by simp, rfl⟩

end Alphabet

end LanguageTheory
