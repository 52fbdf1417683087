import Reckoner.Equation.Linear
import Reckoner.Number.Typed
import Reckoner.Symbol.Function

/-!
# Quadratic equations

The equation `ax² + bx + c = 0` over the reals, for finite coefficients with `a` not zero. The answer has
the roots with the plus root first, the derivation, the factored form and the discriminant; all texts
are written from the same numbers.
-/

namespace Reckoner

namespace Quadratic

/-- The coefficients of a quadratic. -/
structure Coefficients where
  a : Float
  b : Float
  c : Float

/-- Reads one coefficient as a user types it. -/
def readCoefficient (text : String) : Except Cause Float :=
  match Number.typed? text.toList with
  | none => .error (.coefficientNotNumber text)
  | some x => if x.isFinite then .ok x else .error (.coefficientNotFinite text)

namespace Coefficients

/-- Refuses coefficients that are not finite, and a leading zero. -/
def check (q : Coefficients) : Except Cause Unit :=
  if q.a.isFinite ∧ q.b.isFinite ∧ q.c.isFinite then
    if q.a == 0 then .error .zeroLeadingCoefficient else .ok ()
  else .error (.coefficientsNotFinite q.a q.b q.c)

/-- The discriminant before it is known to be finite. -/
def discriminant (q : Coefficients) : Float :=
  q.b * q.b - 4 * q.a * q.c

/-- The roots for a finite discriminant. -/
def rootsFor (q : Coefficients) (discriminant : Float) : Except Cause (List Float) :=
  if discriminant < 0 then .ok []
  else if discriminant == 0 then .ok [-q.b / (2 * q.a)]
  else do
    let root ← Function.sqrt.apply discriminant
    return [(-q.b + root) / (2 * q.a), (-q.b - root) / (2 * q.a)]

/-- The roots, the plus root first. -/
def roots (q : Coefficients) : Except Cause (List Float) :=
  if q.discriminant.isFinite then q.rootsFor q.discriminant
  else .error (.discriminantNotFinite q.a q.b q.c)

end Coefficients

/-- The factor of a root, `x-3` or `x+3`, with `gap` on both sides of the sign. -/
def rootFactor (gap : String) (root : Float) : String :=
  "x" ++ gap ++ (if root < 0 then "+" else "-") ++ gap ++ Number.display root.abs

/-- The factored form of a quadratic with the given roots. -/
def factoredForm (a : Float) (roots : List Float) : String :=
  match roots with
  | [] => "Cannot factor (no real solutions)"
  | [r] => Number.display a ++ "(" ++ rootFactor " " r ++ ")²"
  | roots =>
    let factors := String.join (roots.map fun r => "(" ++ rootFactor "" r ++ ")")
    if a == 1 then factors else Number.display a ++ factors

/-- The factored form of a quadratic. -/
def factor (q : Coefficients) : Except Cause String := do
  q.check
  return factoredForm q.a (← q.roots)

/-- The answer to a quadratic equation. -/
structure Solution where
  roots : List Float
  discriminant : Float
  factoredForm : String
  steps : List String

/-- The lines of the derivation that depend on the roots. -/
def rootSteps (q : Coefficients) (roots : List Float) : List String :=
  let a := Number.display q.a
  let minusB := Number.display (-q.b)
  let root := "√" ++ Number.display q.discriminant
  let halved (index sign : String) (numerator : String) (r : Float) :=
    "x" ++ index ++ " = (-b " ++ sign ++ " √Δ)/(2a) = (" ++ numerator ++ ")/(2×" ++ a ++ ") = " ++
      Number.display r
  match roots with
  | [] => ["Discriminant < 0: No real solutions"]
  | [r] =>
    ["Discriminant = 0: One solution",
      "x = -b/(2a) = " ++ minusB ++ "/(2×" ++ a ++ ") = " ++ Number.display r]
  | r₁ :: r₂ :: _ =>
    ["Discriminant > 0: Two solutions",
      halved "₁" "+" (minusB ++ " + " ++ root) r₁,
      halved "₂" "-" (minusB ++ " - " ++ root) r₂]

/-- The derivation. -/
def steps (q : Coefficients) (roots : List Float) : List String :=
  let a := Number.display q.a
  let b := Number.display q.b
  let c := Number.display q.c
  ["Quadratic equation: " ++ a ++ "x² " ++ Linear.signed q.b ++ "x " ++ Linear.signed q.c ++ " = 0",
    "Discriminant: Δ = b² - 4ac = (" ++ b ++ ")² - 4(" ++ a ++ ")(" ++ c ++ ") = " ++
      Number.display q.discriminant] ++ rootSteps q roots

/-- Solves a quadratic equation. -/
def solve (q : Coefficients) : Except Cause Solution := do
  q.check
  let roots ← q.roots
  return ⟨roots, q.discriminant, factoredForm q.a roots, steps q roots⟩

/-- A solution shown as data. -/
def Solution.shown (s : Solution) : String :=
  "QuadraticSolution(roots=[" ++ String.intercalate ", " (s.roots.map Number.text) ++
    "], factored_form=" ++ Text.quotedString s.factoredForm ++
    ", discriminant=" ++ Number.text s.discriminant ++ ")"

end Quadratic

end Reckoner
