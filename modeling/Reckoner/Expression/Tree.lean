import Reckoner.Expression.Postfix

/-!
# Expression trees

What a postfix list means: numbers, functions applied to one tree, operators between two. A tree has a
value, computed with the left operand first, and a listing in post-order; running the listing computes
the value.
-/

namespace Reckoner

/-- The structure of an expression. -/
inductive Tree where
  | number (value : Float)
  | call (f : Function) (argument : Tree)
  | binary (o : Operator) (left right : Tree)

namespace Tree

/-- The value of a tree, or the first cause met. -/
def evaluate : Tree → Except Cause Float
  | number x => .ok x
  | call f argument => do f.apply (← argument.evaluate)
  | binary o left right => do
    let x ← left.evaluate
    let y ← right.evaluate
    o.apply x y

/-- The tokens of a tree, operands before the operator. -/
def postorder : Tree → List Token
  | number x => [.number x]
  | call f argument => argument.postorder ++ [.function f]
  | binary o left right => left.postorder ++ right.postorder ++ [.operator o]

/-- Running the listing of a tree puts its value on the stack. -/
theorem run_postorder (t : Tree) (stack : List Float) :
    Postfix.run stack t.postorder = t.evaluate >>= fun x => .ok (x :: stack) := by
  induction t generalizing stack with
  | number x => rfl
  | call f argument ih =>
    simp only [postorder, evaluate, Postfix.run_append, ih]
    cases argument.evaluate with
    | error c => rfl
    | ok x =>
      cases h : f.apply x <;>
        simp [bind, Except.bind, pure, Except.pure, Postfix.run, Postfix.step, h]
  | binary o left right ihl ihr =>
    simp only [postorder, evaluate, Postfix.run_append, ihl]
    cases left.evaluate with
    | error c => rfl
    | ok x =>
      simp only [bind, Except.bind, ihr]
      cases right.evaluate with
      | error c => rfl
      | ok y =>
        cases h : o.apply x y <;>
          simp [bind, Except.bind, pure, Except.pure, Postfix.run, Postfix.step, h]

end Tree

end Reckoner
