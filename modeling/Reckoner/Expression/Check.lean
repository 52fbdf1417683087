import Reckoner.Symbol.Operator

/-!
# Checks before reading

A spelled-out expression is refused when it is empty, when its parentheses do not match, when it holds
a character that no expression has, or when two operators stand side by side. The checks are made in
this order, and the first that fails gives the cause.
-/

namespace Reckoner

namespace Expression

/-- The first fault in the parentheses of a text, `depth` of which are open before it. -/
def parenthesisFault? : Nat → List Char → Option Cause
  | 0, [] => none
  | _ + 1, [] => some .missingClose
  | depth, '(' :: rest => parenthesisFault? (depth + 1) rest
  | 0, ')' :: _ => some .missingOpen
  | depth + 1, ')' :: rest => parenthesisFault? depth rest
  | depth, _ :: rest => parenthesisFault? depth rest

/-- Whether a character writes an operator. -/
def isOperatorChar (c : Char) : Bool :=
  (Operator.ofChar? c).isSome

/-- Whether a character may stand in an expression. -/
def isAllowed (c : Char) : Bool :=
  c.isAlphanum || isOperatorChar c || c = '(' || c = ')' || c = '.'

/-- Whether two operators stand side by side. -/
def hasOperatorRun : List Char → Bool
  | a :: b :: rest => (isOperatorChar a && isOperatorChar b) || hasOperatorRun (b :: rest)
  | _ => false

/-- Refuses what cannot be an expression. -/
def check (s : List Char) : Except Cause Unit :=
  if s.isEmpty then .error .emptyExpression
  else
    match parenthesisFault? 0 s with
    | some cause => .error cause
    | none =>
      match s.find? (!isAllowed ·) with
      | some c => .error (.invalidCharacter c)
      | none => if hasOperatorRun s then .error .operatorRun else .ok ()

end Expression

end Reckoner
