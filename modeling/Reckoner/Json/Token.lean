import Reckoner.Json.Value
import Reckoner.Number.Typed

/-!
# JSON tokens

The words of a JSON text: brackets, commas, colons, texts with their escapes resolved, numbers, and the
bare words, among them `NaN`, `Infinity` and `-Infinity`. A place where no word can be read gives the
token `invalid` and ends the list, so that what came before it is still judged first.
-/

namespace Reckoner

namespace Json

/-- A word of a JSON text. -/
inductive Token where
  | openList
  | closeList
  | openObject
  | closeObject
  | comma
  | colon
  | scalar (s : Scalar)
  | integer (negative : Bool) (digits : List Char)
  | invalid

/-- The value of a hexadecimal digit. -/
def hexValue? (c : Char) : Option Nat :=
  if c.isDigit then some (c.toNat - '0'.toNat)
  else if 'a' ≤ c ∧ c ≤ 'f' then some (c.toNat - 'a'.toNat + 10)
  else if 'A' ≤ c ∧ c ≤ 'F' then some (c.toNat - 'A'.toNat + 10)
  else none

/-- The character that a letter after a backslash stands for. -/
def escaped? : Char → Option Char
  | '"' => some '"'
  | '\\' => some '\\'
  | '/' => some '/'
  | 'b' => some '\x08'
  | 'f' => some '\x0c'
  | 'n' => some '\n'
  | 'r' => some '\r'
  | 't' => some '\t'
  | _ => none

/-- The 16-bit unit written by four hexadecimal digits. -/
def unit? (a b c d : Char) : Option Nat := do
  let a ← hexValue? a
  let b ← hexValue? b
  let c ← hexValue? c
  let d ← hexValue? d
  return ((a * 16 + b) * 16 + c) * 16 + d

/-- The code points and 16-bit units of a text up to its closing quote, and what follows the quote. -/
def units? : List Char → Option (List Nat × List Char)
  | [] => none
  | '"' :: rest => some ([], rest)
  | '\\' :: 'u' :: a :: b :: c :: d :: rest => do
    let unit ← unit? a b c d
    let (units, after) ← units? rest
    return (unit :: units, after)
  | '\\' :: c :: rest => do
    let c ← escaped? c
    let (units, after) ← units? rest
    return (c.toNat :: units, after)
  | c :: rest =>
    if c = '\\' ∨ c.toNat < 0x20 then none
    else do
      let (units, after) ← units? rest
      return (c.toNat :: units, after)

/-- The code points that are written by these numbers: a high surrogate and a low one make a single
character, and a surrogate without its partner stays what it is. -/
def ofUnits : List Nat → List CodePoint
  | [] => []
  | [n] => [.ofNat n]
  | n :: m :: rest =>
    if 0xD800 ≤ n ∧ n < 0xDC00 ∧ 0xDC00 ≤ m ∧ m < 0xE000 then
      .ofNat (0x10000 + (n - 0xD800) * 0x400 + (m - 0xDC00)) :: ofUnits rest
    else .ofNat n :: ofUnits (m :: rest)

/-- The digits after a point at the start of a text, and what follows them; no digit, no point. -/
def splitFraction (s : List Char) : List Char × List Char :=
  match s with
  | '.' :: rest =>
    let digits := rest.takeWhile Char.isDigit
    if digits.isEmpty then ([], s) else (digits, rest.dropWhile Char.isDigit)
  | _ => ([], s)

/-- The exponent at the start of a text, if there is one, and what follows it. -/
def splitExponent (s : List Char) : Option Int × List Char :=
  match s with
  | e :: rest =>
    let (negative, after) := Number.splitSign rest
    let digits := after.takeWhile Char.isDigit
    if (e = 'e' ∨ e = 'E') ∧ !digits.isEmpty then
      let n : Int := Text.natOfDigits digits
      (some (if negative then -n else n), after.dropWhile Char.isDigit)
    else (none, s)
  | [] => (none, [])

/-- The number at the start of a text without its sign: a zero or digits that do not begin with one,
then an optional fraction and exponent. With neither of these it is an integer. -/
def number? (negative : Bool) (s : List Char) : Option (Token × List Char) :=
  let (digits, rest) :=
    match s with
    | '0' :: rest => (['0'], rest)
    | s => (s.takeWhile Char.isDigit, s.dropWhile Char.isDigit)
  if digits.isEmpty then none
  else
    let (fraction, rest) := splitFraction rest
    let (exponent, rest) := splitExponent rest
    if fraction.isEmpty ∧ exponent = none then some (.integer negative digits, rest)
    else
      let power := exponent.getD 0 - fraction.length
      let size :=
        Float.ofScientific (Text.natOfDigits (digits ++ fraction)) (power < 0) power.natAbs
      some (.scalar (.float (if negative then -size else size)), rest)

/-- The words of JSON that are not numbers, with what they stand for. -/
def bareWords : List (List Char × Scalar) :=
  [("null".toList, .null), ("true".toList, .bool true), ("false".toList, .bool false),
    ("NaN".toList, .float (0 / 0)), ("Infinity".toList, .float (1 / 0)),
    ("-Infinity".toList, .float (-1 / 0))]

/-- The bare word at the start of a text. -/
def bareWord? (s : List Char) : Option (Token × List Char) :=
  (bareWords.find? fun entry => entry.1.isPrefixOf s).map fun entry =>
    (.scalar entry.2, s.drop entry.1.length)

/-- The punctuation mark that a character is. -/
def mark? : Char → Option Token
  | '[' => some .openList
  | ']' => some .closeList
  | '{' => some .openObject
  | '}' => some .closeObject
  | ',' => some .comma
  | ':' => some .colon
  | _ => none

/-- The token at the start of a text that does not begin with a space, and what follows it. -/
def token? (s : List Char) : Option (Token × List Char) :=
  match s with
  | [] => none
  | c :: rest =>
    match mark? c with
    | some t => some (t, rest)
    | none =>
      if c = '"' then
        (units? rest).map fun (units, after) => (.scalar (.text (ofUnits units)), after)
      else
        (bareWord? s).or (if c = '-' then number? true rest else number? false s)

/-- A character between tokens. -/
def isSpace (c : Char) : Bool :=
  c = ' ' || c = '\t' || c = '\n' || c = '\r'

/-- The tokens of a text, of which at most `fuel` are read. -/
def tokensWithin : Nat → List Char → List Token
  | 0, _ => [.invalid]
  | fuel + 1, s =>
    match s.dropWhile isSpace with
    | [] => []
    | c :: rest =>
      match token? (c :: rest) with
      | some (t, after) => t :: tokensWithin fuel after
      | none => [.invalid]

/-- The tokens of a text. Every token has at least one character, so the length bounds their number. -/
def tokens (s : List Char) : List Token :=
  tokensWithin (s.length + 1) s

end Json

end Reckoner
