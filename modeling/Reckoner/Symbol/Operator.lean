import Reckoner.Failure

/-!
# Operators

The five binary operators: how they are written, how strongly they bind, and what they compute on
doubles. A result that is not finite is a failure, as is a division by zero of either sign.
-/

namespace Reckoner

/-- A binary operator. -/
inductive Operator where
  | add
  | subtract
  | multiply
  | divide
  | power
deriving DecidableEq, Repr

namespace Operator

/-- All operators. -/
def all : List Operator := [add, subtract, multiply, divide, power]

/-- The character that writes the operator. -/
def symbol : Operator → Char
  | add => '+'
  | subtract => '-'
  | multiply => '*'
  | divide => '/'
  | power => '^'

/-- The name of the operator in texts. -/
def name (o : Operator) : String :=
  String.singleton o.symbol

/-- The operator that a character writes. -/
def ofChar? (c : Char) : Option Operator :=
  all.find? (·.symbol = c)

/-- The operator of a name. -/
def ofName? (name : String) : Option Operator :=
  all.find? (·.name = name)

/-- How strongly the operator binds its operands. -/
def precedence : Operator → Nat
  | add | subtract => 1
  | multiply | divide => 2
  | power => 3

/-- Whether a chain of the operator is grouped from the right. -/
def isRightAssociative : Operator → Bool
  | power => true
  | _ => false

/-- The power of two doubles. It has no value at a negative base with a fractional exponent or at zero
with a negative one, nor where finite arguments give a result beyond the doubles. -/
def raise (base exponent : Float) : Except Undefined Float :=
  let result := Float.pow base exponent
  if base.isFinite ∧ exponent.isFinite ∧ ¬result.isFinite then
    .error (if result.isNaN ∨ base == 0 then .outsideDomain else .outOfRange)
  else .ok result

/-- The result of an operator before it is known to be finite. -/
def compute (o : Operator) (left right : Float) : Except Cause Float :=
  match o with
  | add => .ok (left + right)
  | subtract => .ok (left - right)
  | multiply => .ok (left * right)
  | divide => if right == 0 then .error .divisionByZero else .ok (left / right)
  | power => (raise left right).mapError (.powerUndefined left right)

/-- Applies an operator to two doubles; the result is finite. -/
def apply (o : Operator) (left right : Float) : Except Cause Float := do
  let result ← o.compute left right
  if result.isFinite then return result else throw (.resultNotFinite o.name)

/-- Applies the operator of a name. -/
def applyNamed (name : String) (left right : Float) : Except Cause Float :=
  match ofName? name with
  | some o => o.apply left right
  | none => .error (.unknownOperator name)

@[simp] theorem ofChar?_symbol (o : Operator) : ofChar? o.symbol = some o := by
  cases o <;> rfl

theorem symbol_of_ofChar? {c : Char} {o : Operator} (h : ofChar? c = some o) : o.symbol = c := by
  simpa using List.find?_some h

end Operator

end Reckoner
