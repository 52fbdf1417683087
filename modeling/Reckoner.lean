import Reckoner.Text.CodePoint
import Reckoner.Text.Quoted
import Reckoner.Number.Text
import Reckoner.Number.Numeral
import Reckoner.Number.Typed
import Reckoner.Number.Places
import Reckoner.Number.Ratio
import Reckoner.Failure
import Reckoner.Symbol.Operator
import Reckoner.Symbol.Function
import Reckoner.Symbol.Constant
import Reckoner.Symbol.Reference
import Reckoner.Expression.Evaluate
import Reckoner.Expression.Tree
import Reckoner.Equation.Linear
import Reckoner.Equation.Quadratic
import Reckoner.Json.Reader
import Reckoner.Json.Writer
import Reckoner.System
import Reckoner.Settings.Store
import Reckoner.Display
import Reckoner.Console
import Reckoner.Session
import Reckoner.Main
import Reckoner.Proofs.Expression.Cut
import Reckoner.Proofs.Expression.Constant
import Reckoner.Proofs.Expression.Balance
import Reckoner.Proofs.Expression.Outline
import Reckoner.Proofs.Expression.Minus
import Reckoner.Proofs.Outcome
import Reckoner.Proofs.Expression.Verdict
import Reckoner.Proofs.Expression.Order
import Reckoner.Proofs.Expression.Composition
import Reckoner.Proofs.Expression.Refusal
import Reckoner.Proofs.Expression.Infix
import Reckoner.Proofs.Expression.Grammar
import Reckoner.Proofs.Expression.Stages
import Reckoner.Proofs.Expression.Meaning
import Reckoner.Proofs.Expression.Acceptance
import Reckoner.Proofs.Expression.Safety
import Reckoner.Proofs.Number.Mantissa
import Reckoner.Proofs.Number.Arithmetic
import Reckoner.Proofs.Number.Literal
import Reckoner.Proofs.Equation.Grammar
import Reckoner.Proofs.Equation.Sums
import Reckoner.Proofs.Equation.Ruling
import Reckoner.Proofs.Equation.Whole
import Reckoner.Proofs.Equation.Form
import Reckoner.Proofs.Console.Transcript
import Reckoner.Proofs.Console.Derivation
import Reckoner.Proofs.Expression.Bracketed
import Reckoner.Proofs.Expression.Word
import Reckoner.Proofs.Expression.Reordering
import Reckoner.Proofs.Expression.Listing
import Reckoner.Proofs.Number.Written
import Reckoner.Proofs.Number.Plain
import Reckoner.Proofs.Number.Displayed
import Reckoner.Proofs.Number.Order
import Reckoner.Proofs.Number.SquareRoot
import Reckoner.Proofs.Number.Typed
import Reckoner.Proofs.Number.Convergent
import Reckoner.Proofs.Number.Shortest
import Reckoner.Proofs.Number.Places
import Reckoner.Proofs.Equation.Simplified
import Reckoner.Proofs.Equation.Roots
import Reckoner.Proofs.Equation.Factored
import Reckoner.Proofs.Equation.Integral
import Reckoner.Proofs.Expression.Lexing
import Reckoner.Proofs.Expression.Plain
import Reckoner.Proofs.Expression.Identifier
import Reckoner.Proofs.Expression.Substitution
import Reckoner.Proofs.Expression.Unknown
import Reckoner.Proofs.Expression.Juxtaposition
import Reckoner.Proofs.Expression.Settled
import Reckoner.Proofs.Json.Word
import Reckoner.Proofs.Json.Entries
import Reckoner.Proofs.Json.RoundTrip
import Reckoner.Proofs.Json.Fragment
import Reckoner.Proofs.Json.Prefix
import Reckoner.Proofs.Json.Pieces
import Reckoner.Proofs.Settings.Overlay
import Reckoner.Proofs.Settings.Loading
import Reckoner.Proofs.Settings.Saving
import Reckoner.Proofs.Display.Denoted
import Reckoner.Proofs.Display.Fraction
import Reckoner.Proofs.Display.Decimal
import Reckoner.Proofs.Display.Flag
import Reckoner.Proofs.Display.Answer
import Reckoner.Proofs.Number.HalfUp
import Reckoner.Proofs.Display.Order
import Reckoner.Proofs.Equation.Coefficient
import Reckoner.Proofs.Number.Scientific
import Reckoner.Proofs.Display.Misreading
import Reckoner.Proofs.Display.Retyped
