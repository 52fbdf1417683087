import Reckoner.Expression.Token

/-!
# Postfix order

Reordering the tokens of an expression so that every operator and function follows its operands. Waiting
operators, functions and open groups are kept on a stack; each token decides which of them come out
before it.
-/

namespace Reckoner

namespace Postfix

/-- What waits on the stack for its operands to be complete. -/
inductive Waiting where
  | operator (o : Operator)
  | function (f : Function)
  | group
deriving DecidableEq, Repr

namespace Waiting

/-- The token that comes out for a waiting operator or function. -/
def token : Waiting → Token
  | operator o => .operator o
  | function f => .function f
  | group => .leftParen

/-- Whether a waiting item comes out before the operator `o` is put on the stack. -/
def yieldsTo (o : Operator) : Waiting → Bool
  | operator top =>
    o.precedence < top.precedence ||
      (o.precedence = top.precedence && !o.isRightAssociative)
  | function _ => true
  | group => false

end Waiting

/-- Whether the next token opens a group. -/
def opensGroup : List Token → Bool
  | .leftParen :: _ => true
  | _ => false

/-- Takes a function off the top of the stack: it owns the group that has just been closed. -/
def ownerOfGroup : List Waiting → List Token × List Waiting
  | .function f :: stack => ([.function f], stack)
  | stack => ([], stack)

/-- The tokens in postfix order, when `stack` is waiting before them. -/
def reorder (stack : List Waiting) : List Token → Except Cause (List Token)
  | [] =>
    if .group ∈ stack then .error .missingClose else .ok (stack.map Waiting.token)
  | token :: rest =>
    match token with
    | .number x => return .number x :: (← reorder stack rest)
    | .function f =>
      if opensGroup rest then reorder (.function f :: stack) rest
      else .error (.functionWithoutGroup f.name)
    | .leftParen => reorder (.group :: stack) rest
    | .rightParen =>
      let inside := stack.takeWhile (· ≠ .group)
      match stack.dropWhile (· ≠ .group) with
      | [] => .error .missingOpen
      | _ :: below =>
        let (owner, below) := ownerOfGroup below
        return inside.map Waiting.token ++ owner ++ (← reorder below rest)
    | .operator o =>
      let before := stack.takeWhile (·.yieldsTo o)
      let after := stack.dropWhile (·.yieldsTo o)
      return before.map Waiting.token ++ (← reorder (.operator o :: after) rest)
    | .unknown text => .error (.unexpectedToken text)

/-- The tokens of an expression in postfix order. -/
def ofTokens (tokens : List Token) : Except Cause (List Token) :=
  reorder [] tokens

/-- The effect of one token of a postfix list on the stack of values. -/
def step (stack : List Float) (token : Token) : Except Cause (List Float) :=
  match token with
  | .number x => .ok (x :: stack)
  | .function f =>
    match stack with
    | x :: below => return (← f.apply x) :: below
    | [] => .error (.missingArgument f.name)
  | .operator o =>
    match stack with
    | right :: left :: below => return (← o.apply left right) :: below
    | _ => .error (.missingOperand o.name)
  | .leftParen | .rightParen | .unknown _ => .error (.unknownOperator token.text)

/-- The stack of values after a postfix list. -/
def run (stack : List Float) (tokens : List Token) : Except Cause (List Float) :=
  tokens.foldlM step stack

/-- The value of a postfix list: exactly one value must be left. -/
def evaluate (tokens : List Token) : Except Cause Float := do
  match ← run [] tokens with
  | [x] => return x
  | stack => throw (.valuesLeft stack.length)

@[simp] theorem run_nil (stack : List Float) : run stack [] = .ok stack := rfl

@[simp] theorem run_cons (stack : List Float) (t : Token) (l : List Token) :
    run stack (t :: l) = step stack t >>= fun s => run s l := rfl

theorem run_append (stack : List Float) (l₁ l₂ : List Token) :
    run stack (l₁ ++ l₂) = run stack l₁ >>= fun s => run s l₂ := by
  simp [run, List.foldlM_append]

end Postfix

end Reckoner
