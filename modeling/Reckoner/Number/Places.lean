import Reckoner.Number.Exact

/-!
# Rounding to places

A double rounded to `n` decimal places is the double nearest to the decimal that its exact value rounds
to, a half going to the even digit. Beyond 323 places every double is its own rounding.
-/

namespace Reckoner

namespace Number

/-- The most places at which rounding can still change a double. -/
def maxPlaces : Nat := 323

/-- The double rounded to `n` decimal places. -/
def roundToPlaces (x : Float) (n : Nat) : Float :=
  if maxPlaces < n then x
  else
    let units := roundHalfEven (toRat x.abs * (10 : Rat) ^ (n : Int))
    let size := Float.ofScientific units.natAbs true n
    if isNegative x then -size else size

end Number

end Reckoner
