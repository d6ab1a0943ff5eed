import LanguageTheory.DFA.Basic
import LanguageTheory.Partition

/-!
# Distinguishable states

Two states are distinguishable when some word leads exactly one of them to a final state. The states
are divided into final ones and others, and classes are divided further as long as some letter leads
two members of a class to different classes. `distinguishable_iff` says that states end in different
classes exactly when they are distinguishable.
-/

namespace LanguageTheory.DFA

variable {α : Type} [TotalOrd α] {d : DFA α} {p q : d.State} {P : Partition d.states}

/-- The class of a state, with the classes that the letters lead it to. -/
def signature (d : DFA α) (P : Partition d.states) (state : d.State) : List d.State :=
  P.leader state :: (Alphabet.letters d.alphabet).map fun letter => P.leader (d.next state letter)

theorem signature_eq_iff : d.signature P p = d.signature P q ↔
    P.leader p = P.leader q ∧
      ∀ letter, P.leader (d.next p letter) = P.leader (d.next q letter) := by
  simp [signature, Alphabet.mem_letters]

/-- Divides classes whose members some letter leads to different classes. -/
def refine (d : DFA α) (P : Partition d.states) : Partition d.states := .byKey (d.signature P)

theorem leader_refine_eq_iff : (d.refine P).leader p = (d.refine P).leader q ↔
    P.leader p = P.leader q ∧
      ∀ letter, P.leader (d.next p letter) = P.leader (d.next q letter) :=
  Partition.leader_byKey_eq_iff.trans signature_eq_iff

/-- Divides classes until nothing changes. -/
def settle (d : DFA α) (P : Partition d.states) : Partition d.states :=
  let finer := d.refine P
  if _hsettled : finer = P then P else settle d finer
termination_by P.followers
decreasing_by
  exact Partition.followers_lt (fun _ _ h => (leader_refine_eq_iff.mp h).1) _hsettled

/-- The final states and the others. -/
def finality (d : DFA α) : Partition d.states := .byKey d.isFinal

/-- The classes of states that no word tells apart. -/
def classes (d : DFA α) : Partition d.states := d.settle d.finality

/-- Whether two states are in different classes. -/
def distinguishable (d : DFA α) (p q : d.State) : Bool := d.classes.leader p ≠ d.classes.leader q

/-! ## Classes and words -/

/-- Settling only divides classes. -/
theorem leader_eq_of_leader_settle (h : (d.settle P).leader p = (d.settle P).leader q) :
    P.leader p = P.leader q := by
  fun_induction settle d P with
  | case1 => exact h
  | case2 P finer _ ih => exact (leader_refine_eq_iff.mp (ih h)).1

/-- Settled classes are led to settled classes. -/
theorem leader_settle_next (letter : d.Letter)
    (h : (d.settle P).leader p = (d.settle P).leader q) :
    (d.settle P).leader (d.next p letter) = (d.settle P).leader (d.next q letter) := by
  fun_induction settle d P with
  | case1 P finer hsettled =>
      rw [← hsettled] at h
      exact (leader_refine_eq_iff.mp h).2 letter
  | case2 P finer _ ih => exact ih h

/-- States stay in one class when the classes to start with do not tell their runs apart. -/
theorem leader_settle_of_run
    (h : ∀ letters, P.leader (d.run p letters) = P.leader (d.run q letters)) :
    (d.settle P).leader p = (d.settle P).leader q := by
  fun_induction settle d P with
  | case1 => exact h []
  | case2 P finer _ ih =>
      refine ih fun letters => leader_refine_eq_iff.mpr ⟨h letters, fun letter => ?_⟩
      have hlonger := h (letters ++ [letter])
      simpa [run_append] using hlonger

theorem leader_classes_run (letters : List d.Letter) (h : d.classes.leader p = d.classes.leader q) :
    d.classes.leader (d.run p letters) = d.classes.leader (d.run q letters) := by
  induction letters generalizing p q with
  | nil => exact h
  | cons letter letters ih => exact ih (leader_settle_next letter h)

/-- States are in one class exactly when no word tells them apart. -/
theorem leader_classes_eq_iff : d.classes.leader p = d.classes.leader q ↔
    ∀ letters, d.isFinal (d.run p letters) = d.isFinal (d.run q letters) := by
  constructor
  · intro h letters
    exact Partition.leader_byKey_eq_iff.mp
      (leader_eq_of_leader_settle (leader_classes_run letters h))
  · exact fun h => leader_settle_of_run fun letters => Partition.leader_byKey_eq_iff.mpr (h letters)

/-- States are in different classes exactly when some word tells them apart. -/
theorem distinguishable_iff : d.distinguishable p q ↔
    ∃ letters, d.isFinal (d.run p letters) ≠ d.isFinal (d.run q letters) := by
  rw [distinguishable, decide_eq_true_eq, ne_eq, leader_classes_eq_iff, Classical.not_forall]

end LanguageTheory.DFA
