import Reckoner.Number.Decimal

/-!
# Doubles as text

Two forms. The full form identifies the double and always shows that it is one (`3.0`, `1e-05`, `inf`).
The display form is the one of derivations and results: a whole number below 10^21 in size is a plain
integer numeral without a sign on zero, and everything else finite is in full form.
-/

namespace Reckoner

namespace Number

/-- The full form of a double. -/
def text (x : Float) : String :=
  if x.isNaN then "nan"
  else
    let sign := if isNegative x then ['-'] else []
    let size :=
      if x.isInf then ['i', 'n', 'f']
      else if x == 0 then ['0', '.', '0']
      else (Decimal.shortest x.abs).written
    String.ofList (sign ++ size)

/-- The decimal numeral of an integer. -/
def ofInt (n : Int) : String :=
  String.ofList ((if n < 0 then ['-'] else []) ++ Text.digitsOfNat n.natAbs)

/-- The display form of a double. -/
def display (x : Float) : String :=
  match toRat? x with
  | none => if x.isNaN then "NaN" else if isNegative x then "-Infinity" else "Infinity"
  | some r =>
    if r.den = 1 ∧ r.num.natAbs < 1000000000000000000000 then ofInt r.num else text x

end Number

end Reckoner
