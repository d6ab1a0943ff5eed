import LanguageTheory.Regex.Basic
import LanguageTheory.Alphabet
import LanguageTheory.Text.Quoted

/-!
# Reading regular expressions

A pattern is read from left to right, one character at a time. The reader keeps what it has read of
the innermost open group and of the groups around it, so a fault is noticed at the first character
that no pattern can have there; an open parenthesis is faulted when the pattern ends.
-/

namespace LanguageTheory.Regex

/-- What can be wrong with a pattern. -/
inductive SyntaxFault.Kind where
  | unbalancedParenthesis
  | unknownSymbol (c : Char)
  | missingOperand
deriving DecidableEq

/-- A fault and the number of characters before it. -/
structure SyntaxFault where
  kind : SyntaxFault.Kind
  position : Nat
deriving DecidableEq

/-- The wording of a fault. -/
def SyntaxFault.message (fault : SyntaxFault) : String :=
  let kind :=
    match fault.kind with
    | .unbalancedParenthesis => "unbalanced parenthesis"
    | .unknownSymbol c => "unknown symbol " ++ SymbolText.quoted c
    | .missingOperand => "missing operand"
  kind ++ " at position " ++ toString fault.position

/-- The characters that stand for the two expressions without symbols. -/
structure Markers where
  emptyWord : Char := 'λ'
  emptyLanguage : Char := 'ϕ'

/-- The characters with a meaning of their own; none of them is ever a symbol. -/
def operators : List Char := ['(', ')', '*', '+']

/-- The expression of a single character. Symbols come before markers. -/
def operand? (A : Alphabet Char) (markers : Markers) (c : Char) : Option (Regex Char) :=
  if c ∉ operators ∧ c ∈ A then some (.symbol c)
  else if c = markers.emptyWord then some .emptyWord
  else if c = markers.emptyLanguage then some .emptyLanguage
  else none

/-! ## Groups -/

/-- What has been read of a group. -/
structure Group where
  /-- The alternatives before the last `+`. -/
  alternatives : Option (Regex Char) := none
  /-- The factors of the last alternative, but for the last factor. -/
  factors : Option (Regex Char) := none
  /-- The last factor, which stars apply to. -/
  last : Option (Regex Char) := none
deriving DecidableEq

/-- Where in a group the next character stands. -/
inductive Place where
  /-- At the very beginning. -/
  | opening
  /-- After a `+`, where an operand must follow. -/
  | due
  /-- After an operand. -/
  | after
deriving DecidableEq

namespace Group

/-- Where the next character of a group stands. -/
def place (g : Group) : Place :=
  match g.last, g.alternatives with
  | some _, _ => .after
  | none, some _ => .due
  | none, none => .opening

/-- Joins what came before, if anything, to what follows. -/
def joined (join : Regex Char → Regex Char → Regex Char) (before : Option (Regex Char))
    (r : Regex Char) : Regex Char :=
  match before with
  | none => r
  | some earlier => join earlier r

/-- Adds an operand. -/
def push (g : Group) (r : Regex Char) : Group :=
  match g.last with
  | none => { g with last := some r }
  | some last => { g with factors := some (joined concat g.factors last), last := some r }

/-- Applies a star to the last factor. -/
def starLast (g : Group) : Group := { g with last := g.last.map star }

/-- The expression of a group that ends here; with nothing in it, it is the empty word. -/
def value (g : Group) : Regex Char :=
  match g.last with
  | none => emptyWord
  | some last => joined union g.alternatives (joined concat g.factors last)

/-- Begins another alternative. -/
def alternative (g : Group) : Group := { alternatives := some g.value }

end Group

/-! ## Characters -/

/-- What a character does. -/
inductive Move where
  | openGroup
  | closeGroup
  | alternative
  | star
  | operand (r : Regex Char)
deriving DecidableEq

/-- What a character does at a place, within parentheses or not. -/
def moveOf (A : Alphabet Char) (markers : Markers) (place : Place) (inside : Bool) (c : Char) :
    Except SyntaxFault.Kind Move :=
  if c = '(' then .ok .openGroup
  else if c = ')' ∧ place = .opening ∧ inside then .ok .closeGroup
  else if c = '*' ∧ place = .after then .ok .star
  else
    match operand? A markers c with
    | some r => .ok (.operand r)
    | none =>
        if c ∉ operators then .error (.unknownSymbol c)
        else if place ≠ .after then .error .missingOperand
        else if c = '+' then .ok .alternative
        else if inside then .ok .closeGroup
        else .error .unbalancedParenthesis

/-! ## Patterns -/

/-- The innermost group, and the positions of the open parentheses with the groups around them. -/
structure Reader where
  group : Group := {}
  outer : List (Nat × Group) := []
deriving DecidableEq

namespace Reader

/-- Makes the move of the character at a position. -/
def apply (s : Reader) (position : Nat) : Move → Reader
  | .openGroup => { group := {}, outer := (position, s.group) :: s.outer }
  | .closeGroup =>
      match s.outer with
      | [] => s
      | (_, around) :: outer => { group := around.push s.group.value, outer }
  | .alternative => { s with group := s.group.alternative }
  | .star => { s with group := s.group.starLast }
  | .operand r => { s with group := s.group.push r }

/-- Reads the character at a position. -/
def step (A : Alphabet Char) (markers : Markers) (s : Reader) (position : Nat) (c : Char) :
    Except SyntaxFault Reader :=
  match moveOf A markers s.group.place (!s.outer.isEmpty) c with
  | .ok move => .ok (s.apply position move)
  | .error kind => .error ⟨kind, position⟩

/-- Ends the pattern at a position. -/
def finish (s : Reader) (position : Nat) : Except SyntaxFault (Regex Char) :=
  match s.outer with
  | (opened, _) :: _ => .error ⟨.unbalancedParenthesis, opened⟩
  | [] => if s.group.place = .due then .error ⟨.missingOperand, position⟩ else .ok s.group.value

/-- Reads the rest of a pattern from a position on. -/
def read (A : Alphabet Char) (markers : Markers) (s : Reader) (position : Nat) :
    List Char → Except SyntaxFault (Regex Char)
  | [] => s.finish position
  | c :: rest =>
      match s.step A markers position c with
      | .ok s => s.read A markers (position + 1) rest
      | .error fault => .error fault

end Reader

/-- The expression of a pattern, where the markers stand for the expressions without symbols. -/
def parseWith (A : Alphabet Char) (markers : Markers) (pattern : List Char) :
    Except SyntaxFault (Regex Char) :=
  ({} : Reader).read A markers 0 pattern

/-- The expression of a pattern with the usual markers. -/
def parse (A : Alphabet Char) (pattern : List Char) : Except SyntaxFault (Regex Char) :=
  parseWith A {} pattern

end LanguageTheory.Regex
