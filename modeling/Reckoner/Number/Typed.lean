import Reckoner.Number.Exact
import Reckoner.Text.Blank
import Reckoner.Text.DecimalDigit

/-!
# Numbers typed by a user

Coefficients, and numbers kept as texts in the settings, are read more generously than the numerals of
a problem: a sign, an exponent, the words for infinity and NaN in any case, the decimal digits of any
script, and single underscores between digits.
-/

namespace Reckoner

namespace Number

/-- The text without its underscores, if every one of them stands between two digits. -/
def dropUnderscores? : List Char → Option (List Char)
  | [] => some []
  | '_' :: _ => none
  | c :: '_' :: d :: rest =>
    if c.isDigit ∧ d.isDigit then (dropUnderscores? (d :: rest)).map (c :: ·) else none
  | c :: rest => (dropUnderscores? rest).map (c :: ·)

/-- Splits a sign off a text; `true` is minus. -/
def splitSign : List Char → Bool × List Char
  | '-' :: rest => (true, rest)
  | '+' :: rest => (false, rest)
  | s => (false, s)

/-- The exponent after the digits of a number: none written is zero. -/
def exponent? : List Char → Option Int
  | [] => some 0
  | e :: rest =>
    let (negative, digits) := splitSign rest
    if (e = 'e' ∨ e = 'E') ∧ !digits.isEmpty ∧ digits.all Char.isDigit then
      let n : Int := Text.natOfDigits digits
      some (if negative then -n else n)
    else none

/-- The size of a number written in ASCII digits, with an optional point and exponent. -/
def decimal? (s : List Char) : Option Float :=
  let whole := s.takeWhile Char.isDigit
  let rest := s.dropWhile Char.isDigit
  let (fraction, rest) :=
    match rest with
    | '.' :: r => (r.takeWhile Char.isDigit, r.dropWhile Char.isDigit)
    | r => ([], r)
  if whole.isEmpty ∧ fraction.isEmpty then none
  else
    (exponent? rest).map fun e =>
      let power : Int := e - fraction.length
      Float.ofScientific (Text.natOfDigits (whole ++ fraction)) (power < 0) power.natAbs

/-- The size of a number: a decimal, or one of the words `inf`, `infinity` and `nan`. -/
def size? (s : List Char) : Option Float :=
  let word := s.map Char.toLower
  if word = ['i', 'n', 'f'] ∨ word = ['i', 'n', 'f', 'i', 'n', 'i', 't', 'y'] then some (1 / 0)
  else if word = ['n', 'a', 'n'] then some (0 / 0)
  else decimal? s

/-- Reads a typed number, blanks at its ends aside. -/
def typed? (s : List Char) : Option Float := do
  let ascii ← dropUnderscores? ((Text.trim s).map Text.toAsciiDigit)
  let (negative, rest) := splitSign ascii
  let size ← size? rest
  return if negative then -size else size

/-- The blanks that may surround a typed whole number: all but the information separators. -/
def isPadding (c : Char) : Bool :=
  Text.isBlank c && !(0x1C ≤ c.toNat && c.toNat ≤ 0x1F)

/-- The most digits a whole number may have. -/
def maxWholeDigits : Nat := 4300

/-- The outcome of reading a typed whole number. -/
inductive Whole where
  | number (n : Int)
  | malformed
  | tooLong (digits : Nat)
deriving DecidableEq, Repr

/-- Reads a typed whole number. The limit on its length is met before what follows the digits. -/
def typedWhole (s : List Char) : Whole :=
  let padded := s.map Text.toAsciiDigit
  let (negative, rest) := splitSign (padded.dropWhile isPadding)
  let isPart := fun c : Char => c.isDigit || c = '_'
  match dropUnderscores? (rest.takeWhile isPart) with
  | none | some [] => .malformed
  | some digits =>
    if maxWholeDigits < digits.length then .tooLong digits.length
    else if (rest.dropWhile isPart).all isPadding then
      let n : Int := Text.natOfDigits digits
      .number (if negative then -n else n)
    else .malformed

end Number

end Reckoner
