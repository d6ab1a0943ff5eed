import LanguageTheory.Text.Printable

/-!
# Quoted symbols

How symbols are written: plainly in a regular expression, and quoted in a message, where quotes,
backslashes and characters without a picture are escaped.
-/

namespace LanguageTheory

namespace Quoted

/-- A character by its number, in lower-case hexadecimal digits. -/
def numbered (c : Char) : List Char :=
  ['\\', 'u', '\x7b'] ++ Nat.toDigits 16 c.toNat ++ ['\x7d']

/-- A character between two marks `quote`, which is itself escaped. -/
def escape (quote c : Char) : List Char :=
  if c = '\x00' then ['\\', '0']
  else if c = '\t' then ['\\', 't']
  else if c = '\r' then ['\\', 'r']
  else if c = '\n' then ['\\', 'n']
  else if c = '\\' ∨ c = quote then ['\\', c]
  else if Printable.isPrintable c then [c]
  else numbered c

/-- Characters between two marks. -/
def between (quote : Char) (cs : List Char) : String :=
  String.ofList (quote :: cs.flatMap (escape quote) ++ [quote])

end Quoted

/-- Symbols that can be written down. -/
class SymbolText (α : Type) where
  /-- A symbol as it stands in a regular expression. -/
  plain : α → String
  /-- A symbol as it stands in a message. -/
  quoted : α → String

/-- A character is quoted by apostrophes. -/
instance : SymbolText Char where
  plain := String.singleton
  quoted c := Quoted.between '\x27' [c]

/-- A number needs no quotes. -/
instance : SymbolText Int where
  plain := toString
  quoted := toString

/-- A string is quoted by quotation marks. -/
instance : SymbolText String where
  plain := id
  quoted s := Quoted.between '\x22' s.toList

end LanguageTheory
