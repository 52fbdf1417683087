/-!
# Exact values

A finite double is a rational number with a power of two below. Whatever has to be exact (whole parts,
digits, fractions) is computed on that rational; the way back is a single rounding to the nearest
double, ties to the even one.
-/

namespace Reckoner

namespace Number

/-- The rational number that a finite double stands for; infinities and NaN stand for none. -/
def toRat? (x : Float) : Option Rat :=
  match x.toModel.unpack with
  | .zero _ => some 0
  | .finite sign mantissa exponent _ => some ((sign.apply mantissa : Int) * (2 : Rat) ^ exponent)
  | .infinity _ | .notANumber => none

/-- The rational number that a double stands for, and zero for infinities and NaN. -/
def toRat (x : Float) : Rat :=
  (toRat? x).getD 0

/-- Whether the double carries a minus sign; minus zero does. -/
def isNegative (x : Float) : Bool :=
  match x.toModel.unpack with
  | .zero .negative | .finite .negative .. | .infinity .negative => true
  | _ => false

/-- The double nearest to the quotient of two naturals, ties to even. -/
def nearestQuotient (p q : Nat) : Float :=
  if hp : 0 < p then
    if hq : 0 < q then
      .ofModel (.pack (.div .binary64 (.finite .positive p 0 hp) (.finite .positive q 0 hq)))
    else 0
  else 0

/-- The double nearest to a rational number, ties to even. -/
def nearest (r : Rat) : Float :=
  let size := nearestQuotient r.num.natAbs r.den
  if r < 0 then -size else size

/-- Whether the double is a whole number. -/
def isWhole (x : Float) : Bool :=
  match toRat? x with
  | some r => r.den = 1
  | none => false

/-- The whole number nearest to a rational, a half going to the even neighbour. -/
def roundHalfEven (r : Rat) : Int :=
  let low := r.floor
  let gap := r - low
  if gap < 1 / 2 then low
  else if 1 / 2 < gap then low + 1
  else if low % 2 = 0 then low else low + 1

end Number

end Reckoner
