import Reckoner.Text.CodePoint
import Reckoner.Text.Printable

/-!
# Quoted texts

The form in which a text is shown as data: between single quotes, or between double quotes if it holds
a single quote and no double one. The quote in use and the backslash are escaped, tab, line feed and
carriage return have letters, and every other code point that is not printable is written in two, four
or eight hexadecimal digits.
-/

namespace Reckoner

namespace Text

/-- The number in lower-case hexadecimal digits, filled up with zeros to the given width. -/
def hex (width n : Nat) : List Char :=
  let digits := Nat.toDigits 16 n
  List.replicate (width - digits.length) '0' ++ digits

/-- The quote that encloses a text. -/
def quoteOf (s : List CodePoint) : Char :=
  if s.contains (.char '\'') && !s.contains (.char '"') then '"' else '\''

/-- A code point as it stands between the given quotes; a surrogate is never printable. -/
def quotedPoint (quote : Char) : CodePoint → List Char
  | .surrogate index => '\\' :: 'u' :: hex 4 (CodePoint.surrogate index).toNat
  | .char c =>
    if c = quote ∨ c = '\\' then ['\\', c]
    else if c = '\t' then ['\\', 't']
    else if c = '\n' then ['\\', 'n']
    else if c = '\r' then ['\\', 'r']
    else if isPrintable c then [c]
    else if c.toNat < 0x100 then '\\' :: 'x' :: hex 2 c.toNat
    else if c.toNat < 0x10000 then '\\' :: 'u' :: hex 4 c.toNat
    else '\\' :: 'U' :: hex 8 c.toNat

/-- The text in quotes. -/
def quoted (s : List CodePoint) : List Char :=
  let quote := quoteOf s
  quote :: (s.flatMap (quotedPoint quote) ++ [quote])

/-- The quoted form of a string. -/
def quotedString (s : String) : String :=
  String.ofList (quoted s)

end Text

end Reckoner
