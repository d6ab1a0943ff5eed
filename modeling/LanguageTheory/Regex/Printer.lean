import LanguageTheory.Regex.Basic
import LanguageTheory.Text.Quoted

/-!
# The text of a regular expression

Union binds loosest, written `+`; then juxtaposition; a star binds tightest. Parentheses stand only
where an operand binds looser than its place asks for; both binary forms group to the left.
-/

namespace LanguageTheory.Regex

variable {α : Type}

/-- How tightly the outermost form binds. -/
def precedence : Regex α → Nat
  | union .. => 0
  | concat .. => 1
  | _ => 2

/-- Puts parentheses around a text if asked to. -/
def parenthesized (needed : Bool) (text : List Char) : List Char :=
  if needed then '(' :: text ++ [')'] else text

/-- The text of an expression at a place that asks for a given precedence. -/
def textAt (symbolText : α → List Char) (r : Regex α) (place : Nat) : List Char :=
  parenthesized (r.precedence < place)
    (match r with
    | emptyLanguage => ['ϕ']
    | emptyWord => ['λ']
    | symbol a => symbolText a
    | concat first second => first.textAt symbolText 1 ++ second.textAt symbolText 2
    | union left right => left.textAt symbolText 0 ++ '+' :: right.textAt symbolText 1
    | star item => item.textAt symbolText 2 ++ ['*'])

/-- The text of an expression over characters. -/
def toChars (r : Regex Char) : List Char := r.textAt (fun c => [c]) 0

/-- The text of an expression over any symbols that can be written down. -/
def display [SymbolText α] (r : Regex α) : String :=
  String.ofList (r.textAt (fun a => (SymbolText.plain a).toList) 0)

end LanguageTheory.Regex
