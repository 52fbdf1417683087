/-!
# Code points

The texts that settings hold are lists of code points. A code point is a character or one of the 2048
surrogates, which stand for no character by themselves: the first half of them are high, the second half
low, and a high one with a low one behind it is how a character beyond U+FFFF is written in 16-bit units.
-/

namespace Reckoner

/-- A character or a surrogate; the surrogates are counted from U+D800. -/
inductive CodePoint where
  | char (c : Char)
  | surrogate (index : Fin 0x800)
deriving DecidableEq, Repr

namespace CodePoint

/-- The code points of a string, all of them characters. -/
def ofString (s : String) : List CodePoint :=
  s.toList.map char

instance : Coe String (List CodePoint) := ⟨ofString⟩

/-- The number of a code point. -/
def toNat : CodePoint → Nat
  | char c => c.toNat
  | surrogate index => 0xD800 + index

/-- The code point with the number. -/
def ofNat (n : Nat) : CodePoint :=
  if h : 0xD800 ≤ n ∧ n < 0xE000 then surrogate ⟨n - 0xD800, by omega⟩ else char (Char.ofNat n)

/-- The first of two surrogates that make a character. -/
def isHigh : CodePoint → Bool
  | char _ => false
  | surrogate index => index < 0x400

/-- The second of two surrogates that make a character. -/
def isLow : CodePoint → Bool
  | char _ => false
  | surrogate index => 0x400 ≤ index.val

/-- The character, or the replacement character for a surrogate. -/
def replaced : CodePoint → Char
  | char c => c
  | surrogate _ => '\uFFFD'

end CodePoint

end Reckoner
