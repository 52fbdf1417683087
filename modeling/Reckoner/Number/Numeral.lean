import Reckoner.Number.Exact
import Reckoner.Text.DecimalDigit

/-!
# Numerals

A numeral of a problem is written in ASCII digits with at most one point and at least one digit: `3`,
`3.`, `.5`, `3.25`. It carries no sign and no exponent.
-/

namespace Reckoner

/-- The digits of a numeral before and after its point. -/
structure Numeral where
  whole : List Char
  fraction : List Char
deriving DecidableEq, Repr

namespace Numeral

/-- A character that a numeral may hold. -/
def isPart (c : Char) : Bool :=
  c.isDigit || c = '.'

/-- Reads a whole text as a numeral. -/
def ofChars? (s : List Char) : Option Numeral :=
  let whole := s.takeWhile Char.isDigit
  match s.dropWhile Char.isDigit with
  | [] => if whole.isEmpty then none else some ⟨whole, []⟩
  | c :: fraction =>
    if c = '.' ∧ fraction.all Char.isDigit ∧ ¬(whole.isEmpty ∧ fraction.isEmpty) then
      some ⟨whole, fraction⟩
    else none

/-- The double nearest to the number written. -/
def value (n : Numeral) : Float :=
  Float.ofScientific (Text.natOfDigits (n.whole ++ n.fraction)) true n.fraction.length

/-- The value of a numeral, unless it is too big for a finite double. -/
def finite? (n : Numeral) : Option Float :=
  if n.value.isFinite then some n.value else none

end Numeral

end Reckoner
