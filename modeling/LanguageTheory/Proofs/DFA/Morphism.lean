import LanguageTheory.Proofs.DFA.Optimal

/-!
# Maps between automata

A map of states that keeps the initial state, all transitions and finality takes runs to runs. When
such a map is increasing, one automaton is contained in the other one with its order, and what is
outside is never reached. Accessible automata contained in one automaton are hence equal
(`eq_of_isMorphism`), and an automaton has the minimal automaton of every automaton that it contains
(`IsMorphism.minimize_eq`).
-/

namespace LanguageTheory.DFA

variable {α : Type} [TotalOrd α] {d e : DFA α} {w : List α}

/-- A map of states that keeps the initial state, all transitions and finality. -/
structure IsMorphism (f : d.State → e.State) : Prop where
  map_start : f d.start = e.start
  transition?_map : ∀ p symbol, e.transition? (f p) symbol = (d.transition? p symbol).map f
  isFinal_map : ∀ p, e.isFinal (f p) = d.isFinal p

theorem IsIso.isMorphism {f : d.State ≃ e.State} (hf : IsIso f) : IsMorphism f :=
  ⟨hf.map_start, hf.transition?_map, hf.isFinal_map⟩

namespace IsMorphism

/-! ## Runs -/

variable {f : d.State → e.State} (hf : IsMorphism f)
include hf

theorem map_next {letter : d.Letter} {letter' : e.Letter}
    (hletter : e.alphabet.get letter' = d.alphabet.get letter) (p : d.State) :
    f (d.next p letter) = e.next (f p) letter' := by
  have hd : d.transition? p (d.alphabet.get letter) = some (d.next p letter) :=
    transition?_eq_some_iff.mpr ⟨letter, rfl, rfl⟩
  have he : e.transition? (f p) (d.alphabet.get letter) = some (e.next (f p) letter') :=
    transition?_eq_some_iff.mpr ⟨letter', hletter, rfl⟩
  rw [hf.transition?_map, hd, Option.map_some] at he
  exact Option.some.inj he

theorem map_run {letters : List d.Letter} {letters' : List e.Letter}
    (hletters : Alphabet.decode e.alphabet letters' = Alphabet.decode d.alphabet letters)
    (p : d.State) : f (d.run p letters) = e.run (f p) letters' := by
  induction letters generalizing letters' p with
  | nil =>
      obtain rfl := List.map_eq_nil_iff.mp hletters
      rfl
  | cons letter letters ih =>
      obtain ⟨letter', rest, rfl, hletter, hrest⟩ := List.map_eq_cons_iff.mp hletters
      rw [run_cons, run_cons, ih hrest, hf.map_next hletter]

/-- Symbols without transitions are those outside the alphabet, so the alphabet is kept. -/
theorem alphabet_eq : e.alphabet = d.alphabet := by
  apply SortedSet.ext
  intro a
  have hnone : e.transition? (f d.start) a = none ↔ d.transition? d.start a = none := by
    rw [hf.transition?_map, Option.map_eq_none_iff]
  rw [transition?_eq_none_iff, transition?_eq_none_iff] at hnone
  exact not_iff_not.mp hnone

theorem reaches {p : d.State} (hp : d.Reaches w p) : e.Reaches w (f p) := by
  obtain ⟨letters, rfl, rfl⟩ := hp
  have hdecode : ∃ letters', Alphabet.decode e.alphabet letters' =
      Alphabet.decode d.alphabet letters := by
    rw [Alphabet.exists_decode_iff, hf.alphabet_eq, ← Alphabet.exists_decode_iff]
    exact ⟨letters, rfl⟩
  obtain ⟨letters', hletters⟩ := hdecode
  refine ⟨letters', hletters, ?_⟩
  rw [hf.map_run hletters, hf.map_start]

/-- The words are kept. -/
theorem language_eq : e.language = d.language := by
  ext w
  rw [mem_language_iff, mem_language_iff]
  constructor
  · rintro ⟨q, hq, hfinal⟩
    obtain ⟨p, hp⟩ := exists_reaches (d := d) fun a ha => hf.alphabet_eq ▸ hq.mem_alphabet a ha
    refine ⟨p, hp, ?_⟩
    rwa [← hf.isFinal_map, (hf.reaches hp).unique hq]
  · rintro ⟨p, hp, hfinal⟩
    refine ⟨f p, hf.reaches hp, ?_⟩
    rwa [hf.isFinal_map]

theorem recognizes_eq : e.recognizes w = d.recognizes w :=
  recognizes_eq_of_language_eq hf.alphabet_eq hf.language_eq

omit hf

theorem comp {c : DFA α} {g : e.State → c.State} (hg : IsMorphism g) (hf : IsMorphism f) :
    IsMorphism (g ∘ f) where
  map_start := (congrArg g hf.map_start).trans hg.map_start
  transition?_map p a := by
    rw [Function.comp_apply, hg.transition?_map, hf.transition?_map, Option.map_map]
  isFinal_map p := (hg.isFinal_map (f p)).trans (hf.isFinal_map p)

end IsMorphism

/-! ## Equality -/

/-- Automata that differ in their numbers only, and have their states in one order, are equal. -/
theorem eq_of_strictMono {f : d.State ≃ e.State} (hf : IsIso f) (hmono : StrictMono f) :
    d = e := by
  have halphabet : e.alphabet = d.alphabet := hf.isMorphism.alphabet_eq
  obtain ⟨A, n, hn, table, accepting⟩ := d
  obtain ⟨B, m, hm, table', accepting'⟩ := e
  obtain rfl : B = A := halphabet
  obtain rfl : n = m := by simpa using Fintype.card_congr f
  let d : DFA α := ⟨B, n, hn, table, accepting⟩
  let e : DFA α := ⟨B, n, hm, table', accepting'⟩
  -- the identity is the only increasing bijection of an initial segment
  have hid : (f : Fin n → Fin n) = id := by
    apply (hmono.range_inj strictMono_id).mp
    rw [f.surjective.range_eq, Set.range_id]
  have htable : table = table' := by
    apply Table.ext
    intro state letter
    have hnext : f (d.next state letter) = e.next (f state) letter :=
      hf.isMorphism.map_next rfl state
    rw [hid] at hnext
    exact hnext
  have haccepting : accepting = accepting' := by
    apply Vector.ext
    intro state hstate
    have hfinal := hf.isFinal_map ⟨state, hstate⟩
    rw [hid] at hfinal
    exact hfinal.symm
  rw [htable, haccepting]

/-! ## Contained automata -/

section Contained

variable {c : DFA α} {f : d.State → c.State} {g : e.State → c.State}

/-- What a word reaches in one automaton, it reaches in the other. -/
theorem IsMorphism.exists_eq (hf : IsMorphism f) (hg : IsMorphism g) (hd : d.Accessible)
    (p : d.State) : ∃ q, g q = f p := by
  obtain ⟨u, hp⟩ := hd.exists_reaches p
  have halphabet : e.alphabet = d.alphabet := hg.alphabet_eq.symm.trans hf.alphabet_eq
  obtain ⟨q, hq⟩ := exists_reaches (d := e) fun a ha => halphabet ▸ hp.mem_alphabet a ha
  exact ⟨q, (hg.reaches hq).unique (hf.reaches hp)⟩

/-- Accessible automata that are contained in one automaton, in its order, are equal. -/
theorem eq_of_isMorphism (hf : IsMorphism f) (hg : IsMorphism g) (hfmono : StrictMono f)
    (hgmono : StrictMono g) (hd : d.Accessible) (he : e.Accessible) : d = e := by
  choose h hh using hf.exists_eq hg hd
  have hbijective : Function.Bijective h := by
    constructor
    · intro p q hpq
      apply hfmono.injective
      rw [← hh, ← hh, hpq]
    · intro q
      obtain ⟨p, hp⟩ := hg.exists_eq hf he q
      exact ⟨p, hgmono.injective ((hh p).trans hp)⟩
  have hiso : IsIso (Equiv.ofBijective h hbijective) := by
    constructor
    · apply hgmono.injective
      rw [Equiv.ofBijective_apply, hh, hf.map_start, hg.map_start]
    · intro p a
      apply Option.map_injective hgmono.injective
      rw [Equiv.ofBijective_apply, ← hg.transition?_map, hh, hf.transition?_map, Option.map_map]
      exact congrArg (Option.map · _) (funext hh).symm
    · intro p
      rw [Equiv.ofBijective_apply, ← hg.isFinal_map, hh, hf.isFinal_map]
  apply eq_of_strictMono hiso
  intro p q hpq
  apply hgmono.lt_iff_lt.mp
  rw [Equiv.ofBijective_apply, Equiv.ofBijective_apply, hh, hh]
  exact hfmono hpq

end Contained

theorem isMorphism_untrim (d : DFA α) : IsMorphism d.untrim where
  map_start := keptState_start pairwise_reachable d.start_mem_reachable
  transition?_map p a := by
    cases htarget : d.trim.transition? p a with
    | none =>
        rw [transition?_eq_none_iff] at htarget
        exact transition?_eq_none_iff.mpr htarget
    | some q =>
        obtain ⟨letter, rfl, rfl⟩ := transition?_eq_some_iff.mp htarget
        exact transition?_eq_some_iff.mpr ⟨letter, rfl, (untrim_next p letter).symm⟩
  isFinal_map := isFinal_untrim

namespace IsMorphism

variable {f : d.State → e.State} (hf : IsMorphism f) (hmono : StrictMono f)
include hf hmono

/-- States outside an automaton that is contained in another one are not reached. -/
theorem trim_eq : d.trim = e.trim :=
  eq_of_isMorphism (hf.comp d.isMorphism_untrim) e.isMorphism_untrim
    (hmono.comp d.strictMono_untrim) e.strictMono_untrim d.accessible_trim e.accessible_trim

theorem minimize_eq : d.minimize = e.minimize :=
  congrArg (fun trimmed => trimmed.merge trimmed.classes) (hf.trim_eq hmono)

end IsMorphism

end LanguageTheory.DFA
