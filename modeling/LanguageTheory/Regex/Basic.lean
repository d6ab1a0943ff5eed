/-!
# Regular expressions

A regular expression is a tree; `Matches` says which words it stands for.
-/

namespace LanguageTheory

/-- Regular expressions over symbols of any type. -/
inductive Regex (α : Type) where
  | emptyLanguage
  | emptyWord
  | symbol (symbol : α)
  | concat (first second : Regex α)
  | union (left right : Regex α)
  | star (item : Regex α)
deriving DecidableEq

namespace Regex

variable {α : Type}

/-- The words that an expression stands for. -/
inductive Matches : Regex α → List α → Prop
  | emptyWord : Matches emptyWord []
  | symbol (a : α) : Matches (symbol a) [a]
  | concat {first second : Regex α} {u v : List α} :
      Matches first u → Matches second v → Matches (concat first second) (u ++ v)
  | unionLeft {left right : Regex α} {w : List α} : Matches left w → Matches (union left right) w
  | unionRight {left right : Regex α} {w : List α} : Matches right w → Matches (union left right) w
  | starNil {item : Regex α} : Matches (star item) []
  | starAppend {item : Regex α} {u v : List α} :
      Matches item u → Matches (star item) v → Matches (star item) (u ++ v)

/-- The symbols of an expression from left to right. -/
def symbols : Regex α → List α
  | emptyLanguage | emptyWord => []
  | symbol a => [a]
  | concat first second => first.symbols ++ second.symbols
  | union left right => left.symbols ++ right.symbols
  | star item => item.symbols

end Regex

end LanguageTheory
