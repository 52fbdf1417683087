import Reckoner.Number.Exact

/-!
# Closest fractions

`closestFraction` walks the continued fraction of a number up to a bound on the denominator. The answer
is the last convergent within the bound or the last semiconvergent after it, whichever is closer to the
number; if both are equally close it is the convergent.
-/

namespace Reckoner

namespace Number

/-- Two neighbouring convergents `p₀/q₀` and `p₁/q₁` of a continued fraction. -/
structure Convergents where
  p₀ : Int
  q₀ : Nat
  p₁ : Int
  q₁ : Nat
deriving DecidableEq, Repr

namespace Convergents

/-- The pair before the first step: 0/1 and the improper 1/0. -/
def start : Convergents := ⟨0, 1, 1, 0⟩

/-- The next pair, for the partial quotient `a`. -/
def next (c : Convergents) (a : Int) : Convergents :=
  ⟨c.p₁, c.q₁, c.p₀ + a * c.p₁, c.q₀ + a.toNat * c.q₁⟩

/-- The last pair of the continued fraction of `n / d` whose denominators are at most `bound`. -/
def last (bound : Nat) (c : Convergents) (n : Int) (d : Nat) : Convergents :=
  if _h : d = 0 then c
  else
    let following := c.next (n / d)
    if bound < following.q₁ then c else following.last bound d (n % d).toNat
termination_by d
decreasing_by
  have := Int.emod_lt_of_pos n (show (0 : Int) < d by omega)
  have := Int.emod_nonneg n (show (d : Int) ≠ 0 by omega)
  omega

end Convergents

/-- The fraction closest to `r` whose denominator is at most `bound`. -/
def closestFraction (bound : Nat) (r : Rat) : Rat :=
  if r.den ≤ bound then r
  else
    let c := Convergents.last bound .start r.num r.den
    let k := (bound - c.q₀) / c.q₁
    let semiconvergent := mkRat (c.p₀ + k * c.p₁) (c.q₀ + k * c.q₁)
    let convergent := mkRat c.p₁ c.q₁
    if (convergent - r).abs ≤ (semiconvergent - r).abs then convergent else semiconvergent

end Number

end Reckoner
