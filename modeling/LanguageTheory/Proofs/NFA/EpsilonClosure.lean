import LanguageTheory.Proofs.Flat.Recognition
import LanguageTheory.Proofs.Flat.StackSearch

/-!
# Epsilon closure

The search for the epsilon closure of states of an automaton ends, after following each state of the
closure once, with what epsilon edges lead to, in cycles or not. Hence the closure is a closure
operator which goes with unions (`closure_exact`).
-/

namespace LanguageTheory

/-! ## Closures under successors -/

namespace SortedSet

variable {α : Type} [TotalOrd α] {next : α → SortedSet α} {hnext : Bounded fun a => (next a).toList}
  {s t : SortedSet α} {a b : α}

theorem mem_closure_of_mem (ha : a ∈ s) : a ∈ closure next hnext s :=
  mem_closure.mpr ⟨a, ha, .refl⟩

theorem closure_mono (hsubset : ∀ a ∈ s, a ∈ t) (hb : b ∈ closure next hnext s) :
    b ∈ closure next hnext t := by
  obtain ⟨a, ha, hlinked⟩ := mem_closure.mp hb
  exact mem_closure.mpr ⟨a, hsubset a ha, hlinked⟩

theorem closure_closure : closure next hnext (closure next hnext s) = closure next hnext s :=
  closure_eq (fun _ ha => ha) (fun _ ha _ => mem_closure_of_next ha) fun _ => mem_closure_of_mem

theorem closure_union :
    closure next hnext (s ∪ t) = closure next hnext s ∪ closure next hnext t := by
  apply ext
  intro b
  simp only [mem_union, mem_closure, or_and_right, exists_or]

end SortedSet

variable {α : Type} [TotalOrd α]

/-! ## The search in an automaton -/

/-- The search for what epsilon edges lead to from some states. -/
def FlatNFA.searchClosure? (n : FlatNFA α) (states : SortedSet Nat) : Option (StackSearch Nat) :=
  StackSearch.drain n.getEpsilon? n.bounded_getEpsilon? (.start states)

namespace NFA

variable {n : NFA α} {states : SortedSet Nat}

theorem searchClosure?_flat (hstates : ∀ p ∈ states, p < n.states) :
    n.flat.searchClosure? states = some ⟨n.closure states, [], (n.closure states).size⟩ := by
  apply StackSearch.drain_start
  intro p hp
  exact getEpsilon?_flat (lt_of_mem_closure hstates hp)

theorem closure?_eq_some (hstates : ∀ p ∈ states, p < n.states) :
    n.closure? states = some (n.closure states) :=
  if_pos hstates

/-- The search ends, when it has followed each state of the closure once, with the states that
epsilon edges lead to. So the closure of states contains them, is its own closure, grows with them,
and the closure of a union is the union of the closures. -/
theorem closure_exact (hstates : ∀ p ∈ states, p < n.states) :
    n.flat.searchClosure? states = some ⟨n.closure states, [], (n.closure states).size⟩ ∧
      n.closure? states = some (n.closure states) ∧
      (∀ q, q ∈ n.closure states ↔
        ∃ p ∈ states, Linked (fun p q => q ∈ n.epsilonTargets p) p q) ∧
      (∀ p ∈ states, p ∈ n.closure states) ∧
      n.closure? (n.closure states) = some (n.closure states) ∧
      ∀ others : SortedSet Nat, (∀ p ∈ others, p < n.states) →
        ((∀ p ∈ states, p ∈ others) → ∀ q ∈ n.closure states, q ∈ n.closure others) ∧
        n.closure? (states ∪ others) = some (n.closure states ∪ n.closure others) := by
  refine ⟨searchClosure?_flat hstates, closure?_eq_some hstates, fun q => mem_closure,
    fun p => SortedSet.mem_closure_of_mem, ?_, ?_⟩
  · rw [closure?_eq_some fun q => lt_of_mem_closure hstates]
    exact congrArg some SortedSet.closure_closure
  · intro others hothers
    refine ⟨fun hsubset q => SortedSet.closure_mono hsubset, ?_⟩
    have hunion : ∀ p ∈ states ∪ others, p < n.states := by
      intro p hp
      exact (SortedSet.mem_union.mp hp).elim (hstates p) (hothers p)
    rw [closure?_eq_some hunion]
    exact congrArg some SortedSet.closure_union

/-- Three states in a circle of epsilon edges, and a state with an epsilon edge to itself. -/
def rings : NFA Char where
  toDraft := (Draft.empty {'0', '1'}).addStates 4
    |>.insertEpsilon ⟨0, by decide⟩ ⟨1, by decide⟩
    |>.insertEpsilon ⟨1, by decide⟩ ⟨2, by decide⟩
    |>.insertEpsilon ⟨2, by decide⟩ ⟨0, by decide⟩
    |>.insertEpsilon ⟨3, by decide⟩ ⟨3, by decide⟩
    |>.insertFinal ⟨2, by decide⟩
  states_pos := by decide

theorem closure_exact_rings :
    rings.flat.searchClosure? {1} = some ⟨{0, 1, 2}, [], 3⟩ ∧
      rings.closure? {0, 1, 2} = some {0, 1, 2} ∧
      rings.closure? ({1} ∪ {3}) = some ({0, 1, 2} ∪ {3}) := by
  have hone : 1 ∈ rings.closure {1} := SortedSet.mem_closure_of_mem (by decide)
  have htwo : 2 ∈ rings.closure {1} := SortedSet.mem_closure_of_next hone (by decide)
  have hzero : 0 ∈ rings.closure {1} := SortedSet.mem_closure_of_next htwo (by decide)
  have hcircle : rings.closure {1} = {0, 1, 2} := by
    refine SortedSet.closure_eq (by decide) (by decide) ?_
    simp only [SortedSet.mem_insert, SortedSet.mem_singleton, forall_eq_or_imp, forall_eq]
    exact ⟨hzero, hone, htwo⟩
  have hloop : rings.closure {3} = {3} :=
    SortedSet.closure_eq (by decide) (by decide) fun _ => SortedSet.mem_closure_of_mem
  have hrange : ∀ p ∈ ({1} : SortedSet Nat), p < rings.states := by decide
  obtain ⟨hsearch, _, _, _, hagain, hlaws⟩ := closure_exact hrange
  have hunion := (hlaws {3} (by decide)).2
  rw [hcircle] at hsearch hagain hunion
  rw [hloop] at hunion
  exact ⟨hsearch, hagain, hunion⟩

end NFA

end LanguageTheory
