import LanguageTheory.SortedSet

/-!
# Alphabets

An alphabet is a finite set of symbols; the rank of a symbol in it is its letter. Words are
encoded as letters before an automaton reads them, and the first symbol outside the alphabet is
reported with its position.
-/

namespace LanguageTheory

/-- A finite set of symbols. -/
abbrev Alphabet (α : Type) [TotalOrd α] := SortedSet α

/-- A symbol of a word that is not in the alphabet, and where it stands. -/
structure ForeignSymbol (α : Type) where
  symbol : α
  position : Nat
deriving DecidableEq

namespace Alphabet

variable {α : Type} [TotalOrd α]

/-- The letters of an alphabet are the ranks of its symbols. -/
abbrev Letter (A : Alphabet α) := Fin A.size

/-- The letters of an alphabet in order. -/
def letters (A : Alphabet α) : List (Letter A) := List.finRange A.size

theorem mem_letters {A : Alphabet α} (a : Letter A) : a ∈ letters A := List.mem_finRange a

/-- Encodes a word whose first symbol stands at `position`. -/
def encodeFrom (A : Alphabet α) (position : Nat) :
    List α → Except (ForeignSymbol α) (List (Letter A))
  | [] => .ok []
  | symbol :: rest =>
      match A.rank? symbol with
      | none => .error ⟨symbol, position⟩
      | some letter => (encodeFrom A (position + 1) rest).map (letter :: ·)

/-- The letters of a word, or its first symbol outside the alphabet. -/
def encode (A : Alphabet α) (word : List α) : Except (ForeignSymbol α) (List (Letter A)) :=
  encodeFrom A 0 word

/-- The word that a list of letters stands for. -/
def decode (A : Alphabet α) (letters : List (Letter A)) : List α := letters.map A.get

theorem encodeFrom_eq_ok_iff {A : Alphabet α} {word : List α} {position : Nat}
    {letters : List (Letter A)} :
    encodeFrom A position word = .ok letters ↔ decode A letters = word := by
  induction word generalizing position letters with
  | nil => cases letters <;> simp [encodeFrom, decode]
  | cons symbol rest ih =>
      cases hrank : A.rank? symbol with
      | none =>
          have hnot := SortedSet.rank?_eq_none_iff.mp hrank
          simp only [encodeFrom, hrank, reduceCtorEq, false_iff]
          rintro heq
          cases letters with
          | nil => simp [decode] at heq
          | cons letter letters =>
              have hsymbol : A.get letter = symbol := (List.cons.inj heq).1
              exact hnot (hsymbol ▸ A.get_mem letter)
      | some letter =>
          have hget := SortedSet.rank?_eq_some_iff.mp hrank
          cases letters with
          | nil =>
              cases htail : encodeFrom A (position + 1) rest <;>
                simp [encodeFrom, hrank, htail, decode, Except.map]
          | cons other letters =>
              have hother : A.get other = symbol ↔ letter = other := by
                rw [← SortedSet.rank?_eq_some_iff, hrank, Option.some.injEq]
              cases htail : encodeFrom A (position + 1) rest with
              | error fault =>
                  have hno := @ih (position + 1) letters
                  rw [htail] at hno
                  simp only [reduceCtorEq, false_iff] at hno
                  simp only [encodeFrom, hrank, htail, Except.map, reduceCtorEq, false_iff]
                  exact fun heq => hno (List.cons.inj heq).2
              | ok tail =>
                  have hyes := @ih (position + 1) letters
                  rw [htail] at hyes
                  simp only [Except.ok.injEq] at hyes
                  simp only [encodeFrom, hrank, htail, Except.map, Except.ok.injEq,
                    List.cons.injEq, decode, List.map_cons, hother, hyes]

/-- A word is encoded exactly by the letters that stand for it. -/
theorem encode_eq_ok_iff {A : Alphabet α} {word : List α} {letters : List (Letter A)} :
    encode A word = .ok letters ↔ decode A letters = word :=
  encodeFrom_eq_ok_iff

end Alphabet

/-! ## Words by length -/

section Words

variable {α : Type}

/-- The words of one length over a list of symbols, in lexicographic order of that list. -/
def wordsOfLength (symbols : List α) : Nat → List (List α)
  | 0 => [[]]
  | length + 1 => symbols.flatMap fun symbol => (wordsOfLength symbols length).map (symbol :: ·)

/-- The words of at most a given length, shorter words first. -/
def wordsUpTo (symbols : List α) (length : Nat) : List (List α) :=
  (List.range (length + 1)).flatMap (wordsOfLength symbols)

theorem mem_wordsOfLength {symbols : List α} {length : Nat} {word : List α} :
    word ∈ wordsOfLength symbols length ↔ word.length = length ∧ ∀ a ∈ word, a ∈ symbols := by
  induction length generalizing word with
  | zero =>
      cases word <;> simp [wordsOfLength]
  | succ length ih =>
      cases word with
      | nil => simp [wordsOfLength]
      | cons a word => simp [wordsOfLength, ih, and_assoc, and_comm, and_left_comm]

end Words

end LanguageTheory
