import Reckoner.Equation.Linear
import Reckoner.Expression.Evaluate
import Reckoner.Number.Places
import Reckoner.Number.Ratio
import Reckoner.Settings.Basic

/-!
# Displaying results

A whole result is shown as it is. Any other is shown as the closest fraction with a denominator of at
most 100000, or rounded to the decimal places that the settings ask for, and it is noted whether the
text still stands for the result. `calculate` answers a whole problem in this way.
-/

namespace Reckoner

namespace Display

/-- A result as text, and whether the text stands for another number than the result. -/
structure Shown where
  text : String
  rounded : Bool
deriving DecidableEq, Repr

/-- The greatest denominator of a displayed fraction. -/
def maxDenominator : Nat := 100000

/-- A fraction as a whole number, a proper fraction, or both with a blank between them. -/
def fractionText (r : Rat) : String :=
  let sign := if r < 0 then "-" else ""
  let whole := r.num.natAbs / r.den
  let rest := r.num.natAbs % r.den
  let proper := Number.ofInt rest ++ "/" ++ Number.ofInt r.den
  if r.den = 1 then sign ++ Number.ofInt whole
  else if whole = 0 then sign ++ proper
  else sign ++ Number.ofInt whole ++ " " ++ proper

/-- A result as a fraction. -/
def asFraction (x : Float) : Shown :=
  let r := Number.closestFraction maxDenominator (Number.toRat x)
  ⟨fractionText r, Number.nearest r != x⟩

/-- A result rounded to decimal places. -/
def asDecimal (places : Nat) (x : Float) : Shown :=
  let y := Number.roundToPlaces x places
  ⟨Number.display y, y != x⟩

/-- Shows a result in the way the settings ask for. -/
def render (settings : Settings) (x : Float) : Except SettingsFault Shown := do
  let places ← settings.decimalPlaces
  return if ¬x.isFinite ∨ Number.isWhole x then ⟨Number.display x, false⟩
    else if settings.showsFractions then asFraction x
    else asDecimal places x

/-- Shows a result inside an answer: unusable settings are a failure of the problem. -/
def renderFor (settings : Settings) (problem : String) (x : Float) : Except Failure Shown :=
  (render settings x).mapError fun fault =>
    ⟨.unexpected (String.ofList (Text.trim fault.message.toList)), some problem⟩

/-- The answer to an equation. -/
def answerEquation (settings : Settings) (problem : String) : Except Failure String := do
  let solution ← (Linear.solve problem).mapError (·.inProblem problem)
  if solution.value.isInf then return "Inf. Solutions"
  else if solution.value.isNaN then return "No Solution"
  else
    let shown ← renderFor settings problem solution.value
    return (if shown.rounded then "x ≈ " else "x = ") ++ shown.text

/-- The answer to an expression. -/
def answerExpression (settings : Settings) (problem : String) : Except Failure String := do
  let value ← Expression.evaluate problem
  let shown ← renderFor settings problem value
  return (if shown.rounded then "≈ " else "= ") ++ shown.text

/-- The answer to a problem: with an equals sign it is an equation, else an expression. -/
def calculate (settings : Settings) (problem : String) : Except Failure String :=
  if problem.toList.contains '=' then answerEquation settings problem
  else answerExpression settings problem

end Display

end Reckoner
