import LanguageTheory.Proofs.DFA.Numbering
import LanguageTheory.Proofs.WordOrder

/-!
# Least words of states

Of the words that lead to a state one is the least, a shortest one that comes first in the order of
the alphabet. Canonically numbered states are in the order of their least words
(`ShortlexNumbered.lt_iff_shortlex`).
-/

namespace LanguageTheory

variable {α : Type} [TotalOrd α]

instance : Std.Asymm (fun a b : α => Below a b) := ⟨fun _ _ => Below.asymm⟩

/-- Letters are in the order of their symbols. -/
theorem Alphabet.shortlex_decode {A : Alphabet α} {letters others : List (Letter A)}
    (h : List.Shortlex (· < ·) letters others) :
    List.Shortlex Below (decode A letters) (decode A others) :=
  shortlex_map (fun _ _ => SortedSet.get_lt_get) h

namespace DFA

variable {d : DFA α} {p q : d.State} {u v w : List α}

/-- The least word that leads to a state. Shorter words come first, and words of one length are in the
order of the symbols where they first differ. -/
def IsLeastWord (d : DFA α) (p : d.State) (w : List α) : Prop :=
  d.Reaches w p ∧ ∀ v, d.Reaches v p → v ≠ w → List.Shortlex Below w v

theorem IsLeastWord.unique (hv : d.IsLeastWord p v) (hw : d.IsLeastWord p w) : v = w := by
  by_contra hne
  have hvw : List.Shortlex Below v w := hv.2 w hw.1 (Ne.symm hne)
  have hwv : List.Shortlex Below w v := hw.2 v hv.1 hne
  exact asymm hvw hwv

theorem exists_isLeastWord (hp : ∃ w, d.Reaches w p) : ∃ w, d.IsLeastWord p w := by
  obtain ⟨_, letters, _, hletters⟩ := hp
  have hwf : WellFounded (List.Shortlex (α := d.Letter) (· < ·)) := List.Shortlex.wf wellFounded_lt
  obtain ⟨least, hleast, hmin⟩ :=
    hwf.has_min {letters | d.run d.start letters = p} ⟨letters, hletters⟩
  refine ⟨Alphabet.decode d.alphabet least, ⟨least, rfl, hleast⟩, ?_⟩
  rintro _ ⟨others, rfl, hothers⟩ hne
  apply Alphabet.shortlex_decode
  by_contra hnot
  have hsame : others = least :=
    Std.Trichotomous.trichotomous others least (hmin others hothers) hnot
  exact hne (congrArg _ hsame)

namespace ShortlexNumbered

variable (hd : d.ShortlexNumbered)
include hd

/-- The least word for a state comes before all words for the states numbered after it. -/
theorem shortlex_of_lt (hu : d.IsLeastWord p u) (hv : d.Reaches v q) (hpq : p < q) :
    List.Shortlex Below u v := by
  obtain ⟨letters, rfl, hletters⟩ := hv
  obtain ⟨lesser, hlesser, horder⟩ := hd.exists_lesser p q hpq letters hletters
  have hless := Alphabet.shortlex_decode horder
  by_cases hsame : Alphabet.decode d.alphabet lesser = u
  · rwa [hsame] at hless
  · exact shortlex_trans Below.trans (hu.2 _ ⟨lesser, rfl, hlesser⟩ hsame) hless

/-- States are numbered in the order of their least words. -/
theorem lt_iff_shortlex (hu : d.IsLeastWord p u) (hv : d.IsLeastWord q v) :
    p < q ↔ List.Shortlex Below u v := by
  constructor
  · exact hd.shortlex_of_lt hu hv.1
  · intro huv
    rcases lt_trichotomy p q with hpq | rfl | hqp
    · exact hpq
    · obtain rfl := hu.unique hv
      exact absurd huv (asymm huv)
    · exact absurd (hd.shortlex_of_lt hv hu.1 hqp) (asymm huv)

end ShortlexNumbered

end DFA

end LanguageTheory
