import Reckoner.Expression.Spelling
import Reckoner.Expression.Check
import Reckoner.Expression.Postfix

/-!
# Evaluating expressions

The way from a typed text to its value: spell it out, check it, cut it into tokens, bring them into
postfix order, and run them. A failure names the text it was met in.
-/

namespace Reckoner

namespace Expression

/-- The value of a spelled-out expression. -/
def evaluateSpelled (s : List Char) : Except Cause Float := do
  check s
  let tokens ← Token.tokenize s
  let postfixTokens ← Postfix.ofTokens tokens
  Postfix.evaluate postfixTokens

/-- The value of a typed expression. -/
def evaluate (text : String) : Except Failure Float :=
  (evaluateSpelled (spell text.toList)).mapError fun cause => ⟨cause, some text⟩

end Expression

end Reckoner
