import Reckoner.Number.Exact
import Reckoner.Text.DecimalDigit

/-!
# Decimals

A decimal is a natural number times a power of ten. `Decimal.shortest` is the decimal of fewest digits
that reads back as a given double, and among those of equal length the one nearest to it; a tie goes to
the even digit. `Decimal.written` lays a decimal out: positionally when the exponent of the leading
digit is between −4 and 15, with at least one digit after the point, and otherwise in scientific
notation with a signed exponent of at least two digits.
-/

namespace Reckoner

/-- The value `digits · 10 ^ exponent`. -/
structure Decimal where
  digits : Nat
  exponent : Int
deriving DecidableEq, Repr

namespace Decimal

/-- The rational number that the decimal denotes. -/
def toRat (d : Decimal) : Rat :=
  d.digits * (10 : Rat) ^ d.exponent

/-- The double nearest to the decimal. -/
def toFloat (d : Decimal) : Float :=
  Float.ofScientific d.digits (d.exponent < 0) d.exponent.natAbs

/-- The number of decimal digits of a natural number. -/
def length (n : Nat) : Nat :=
  (Text.digitsOfNat n).length

/-- The least `k` such that the positive rational `r` is below `10 ^ k`. -/
def scale (r : Rat) : Int :=
  let k := (length r.num.natAbs : Int) - length r.den
  if r < (10 : Rat) ^ k then k else k + 1

/-- Of the two multiples of `10 ^ k` around the positive rational `r`, the one nearest to it that
reads back as the double `x`. -/
def onGrid? (x : Float) (r : Rat) (k : Int) : Option Decimal :=
  let units := r * (10 : Rat) ^ (-k)
  let near := Number.roundHalfEven units
  let far := if near = units.floor then near + 1 else units.floor
  ([⟨near.toNat, k⟩, ⟨far.toNat, k⟩] : List Decimal).find? fun d => d.toFloat == x

/-- The decimal that equals the positive rational `r`, a fraction over a power of two. -/
def ofDyadic (r : Rat) : Decimal :=
  let places := r.den.log2
  ⟨(r * (10 : Rat) ^ (places : Int)).num.natAbs, -places⟩

/-- Moves the trailing zeros of the digits into the exponent. -/
def strip (d : Decimal) : Decimal :=
  if h : 0 < d.digits ∧ d.digits % 10 = 0 then strip ⟨d.digits / 10, d.exponent + 1⟩ else d
termination_by d.digits
decreasing_by exact Nat.div_lt_self h.1 (by decide)

/-- The decimal of fewest digits that reads back as the positive finite double `x`. -/
def shortest (x : Float) : Decimal :=
  let r := Number.toRat x
  let top := scale r
  strip (((List.range 17).findSome? fun n => onGrid? x r (top - (n + 1 : Nat))).getD (ofDyadic r))

/-- The decimal laid out in positional or scientific notation. -/
def written (d : Decimal) : List Char :=
  let s := Text.digitsOfNat d.digits
  let point := s.length + d.exponent
  if -4 < point ∧ point ≤ 16 then
    if point ≤ 0 then '0' :: '.' :: (List.replicate (-point).toNat '0' ++ s)
    else if point < s.length then s.take point.toNat ++ '.' :: s.drop point.toNat
    else s ++ List.replicate (point - s.length).toNat '0' ++ ['.', '0']
  else
    let power := point - 1
    let size := Text.digitsOfNat power.natAbs
    s.take 1 ++ (if s.length = 1 then [] else '.' :: s.drop 1) ++
      'e' :: (if power < 0 then '-' else '+') :: (List.replicate (2 - size.length) '0' ++ size)

end Decimal

end Reckoner
