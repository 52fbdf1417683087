import Reckoner.Failure

/-!
# Functions

The named functions of one argument. Trigonometry, exponentials and logarithms are those of the
platform; absolute value, square root and the rounding functions are exact. A function has a value only
where it is defined, and the value is a finite double.
-/

namespace Reckoner

/-- A named function of one argument. -/
inductive Function where
  | sin
  | cos
  | tan
  | asin
  | acos
  | atan
  | sinh
  | cosh
  | tanh
  | ln
  | log
  | log2
  | sqrt
  | cbrt
  | abs
  | ceil
  | floor
  | round
  | exp
deriving DecidableEq, Repr

namespace Function

/-- All functions. -/
def all : List Function :=
  [sin, cos, tan, asin, acos, atan, sinh, cosh, tanh, ln, log, log2, sqrt, cbrt, abs, ceil, floor,
    round, exp]

/-- The name of the function. -/
def name : Function → String
  | sin => "sin"
  | cos => "cos"
  | tan => "tan"
  | asin => "asin"
  | acos => "acos"
  | atan => "atan"
  | sinh => "sinh"
  | cosh => "cosh"
  | tanh => "tanh"
  | ln => "ln"
  | log => "log"
  | log2 => "log2"
  | sqrt => "sqrt"
  | cbrt => "cbrt"
  | abs => "abs"
  | ceil => "ceil"
  | floor => "floor"
  | round => "round"
  | exp => "exp"

/-- The function of a name. -/
def ofName? (name : String) : Option Function :=
  all.find? (·.name = name)

/-- The whole number that `round` takes from a rational, or why there is none. -/
def whole (round : Rat → Int) (x : Float) : Except Undefined Float :=
  match Number.toRat? x with
  | some r => .ok (Float.ofInt (round r))
  | none => .error (if x.isNaN then .wholeOfNaN else .wholeOfInfinity)

/-- Judges the result of a platform function at `x`: a NaN that did not come in means that the function
is not defined there, and an infinity from a finite argument is an overflow or a pole. -/
def judge (whenInfinite : Undefined) (x result : Float) : Except Undefined Float :=
  if result.isNaN ∧ ¬x.isNaN then .error .outsideDomain
  else if result.isInf ∧ x.isFinite then .error whenInfinite
  else .ok result

/-- The cube root, with the sign of the argument. The power with exponent one third is replaced by the
whole number next to it wherever the cube of that number is the argument. -/
def cubeRoot (x : Float) : Except Undefined Float :=
  let root := Float.pow x.abs (1 / 3)
  let signed (r : Float) := if Number.isNegative x then -r else r
  match Number.toRat? root with
  | none => .ok (signed root)
  | some r =>
    let snapped := Float.ofInt (Number.roundHalfEven r)
    let cube := Float.pow snapped 3
    if ¬cube.isFinite then .error .cubeOutOfRange
    else .ok (signed (if cube == x.abs then snapped else root))

/-- The value of the function before it is known to be finite. -/
def compute (f : Function) (x : Float) : Except Undefined Float :=
  match f with
  | sin => judge .outsideDomain x x.sin
  | cos => judge .outsideDomain x x.cos
  | tan => judge .outsideDomain x x.tan
  | asin => judge .outsideDomain x x.asin
  | acos => judge .outsideDomain x x.acos
  | atan => judge .outsideDomain x x.atan
  | sinh => judge .outOfRange x x.sinh
  | cosh => judge .outOfRange x x.cosh
  | tanh => judge .outsideDomain x x.tanh
  | ln => judge .outsideDomain x x.log
  | log => judge .outsideDomain x x.log10
  | log2 => judge .outsideDomain x x.log2
  | sqrt => judge .outsideDomain x x.sqrt
  | cbrt => cubeRoot x
  | abs => .ok x.abs
  | ceil => whole Rat.ceil x
  | floor => whole Rat.floor x
  | round => whole Rat.floor (x + 0.5)
  | exp => judge .outOfRange x x.exp

/-- Applies a function; the result is finite. -/
def apply (f : Function) (x : Float) : Except Cause Float := do
  let result ← (f.compute x).mapError (.functionUndefined f.name)
  if result.isFinite then return result else throw (.functionNotFinite f.name)

/-- Applies the function of a name. -/
def applyNamed (name : String) (x : Float) : Except Cause Float :=
  match ofName? name with
  | some f => f.apply x
  | none => .error (.unknownName name)

@[simp] theorem ofName?_name (f : Function) : ofName? f.name = some f := by
  cases f <;> rfl

theorem name_of_ofName? {s : String} {f : Function} (h : ofName? s = some f) : f.name = s := by
  simpa using List.find?_some h

end Function

end Reckoner
