import Reckoner.Expression.Chunk
import Reckoner.Symbol.Constant

/-!
# Spelling out

An expression as a user types it leaves things unsaid. Spelling it out drops the blanks, replaces the
display symbols by their ASCII forms and the constants by their values, writes the `*` of a product
that is only juxtaposed, and turns every unary minus into a subtraction from zero. It never fails; what
makes no sense is kept and refused later.
-/

namespace Reckoner

namespace Expression

open Chunk (mark number)

/-- Reads two asterisks in a row as the power operator. -/
def foldStars : List Char → List Char
  | '*' :: '*' :: rest => '^' :: foldStars rest
  | c :: rest => c :: foldStars rest
  | [] => []

/-- The ASCII form of a display symbol; other characters stand for themselves. -/
def plainForm (c : Char) : List Char :=
  match c with
  | 'π' => ['p', 'i']
  | 'φ' => ['p', 'h', 'i']
  | '√' => ['s', 'q', 'r', 't']
  | '×' => ['*']
  | '÷' => ['/']
  | c => [c]

/-- The text without blanks and with all display symbols in ASCII form. -/
def expand (raw : List Char) : List Char :=
  (foldStars (Text.dropBlanks raw)).flatMap plainForm

/-- Whether two neighbouring chunks are a product with the sign left out. -/
def isJuxtaposition (left right : Chunk) : Bool :=
  (left.isNumber || left = mark ')') &&
    (right = mark '(' || right.isName || (right.isNumber && left = mark ')'))

/-- Writes the sign of every juxtaposed product. -/
def insertTimes : List Chunk → List Chunk
  | left :: right :: rest =>
    if isJuxtaposition left right then left :: mark '*' :: insertTimes (right :: rest)
    else left :: insertTimes (right :: rest)
  | chunks => chunks

/-- The number of chunks up to the parenthesis that closes the groups open at this point, or of all
chunks if there is none. -/
def groupLength : Nat → List Chunk → Nat
  | _, [] => 0
  | depth, chunk :: rest =>
    if chunk = mark '(' then groupLength (depth + 1) rest + 1
    else if chunk = mark ')' then
      if depth ≤ 1 then 1 else groupLength (depth - 1) rest + 1
    else groupLength depth rest + 1

/-- The number of chunks of the numeral, name, application or group at the start. -/
def atomLength? : List Chunk → Option Nat
  | .number _ :: _ => some 1
  | .name _ :: .mark '(' :: rest => some (groupLength 1 rest + 2)
  | .name _ :: _ => some 1
  | .mark '(' :: rest => some (groupLength 1 rest + 1)
  | _ => none

/-- The number of chunks of the powers that follow an atom, each exponent with an optional minus. -/
def powersLength (chunks : List Chunk) : Nat :=
  match chunks with
  | .mark '^' :: .mark '-' :: rest =>
    match atomLength? rest with
    | some n => n + 2 + powersLength (rest.drop n)
    | none => 0
  | .mark '^' :: rest =>
    match atomLength? rest with
    | some n => n + 1 + powersLength (rest.drop n)
    | none => 0
  | _ => 0
termination_by chunks.length
decreasing_by all_goals simp only [List.length_cons, List.length_drop]; omega

/-- The number of chunks of the operand of a unary minus: an atom and the powers that follow it. -/
def operandLength? (chunks : List Chunk) : Option Nat :=
  (atomLength? chunks).map fun n => n + powersLength (chunks.drop n)

/-- Turns every unary minus into a subtraction from zero. At the start and after an opening parenthesis
the zero is enough; after an operator the difference gets parentheses of its own, and `pending` counts
for each of them the chunks still to come before it closes. A minus without an operand stays. -/
def subtractFromZero (previous : Option Chunk) (pending : List Nat) : List Chunk → List Chunk
  | [] => []
  | chunk :: rest =>
    let isUnary := chunk = mark '-'
    let isLeading := isUnary ∧ (previous = none ∨ previous = some (mark '('))
    let operand := if isUnary ∧ previous.any (·.isOperator) then operandLength? rest else none
    let opening :=
      if isLeading then [number ['0']]
      else if operand.isSome then [mark '(', number ['0']]
      else []
    let pending := operand.toList.map (· + 1) ++ pending
    opening ++ chunk :: (List.replicate (pending.count 1) (mark ')') ++
      subtractFromZero (some chunk) ((pending.filter (1 < ·)).map (· - 1)) rest)

/-- The chunks of the expression spelled out. -/
def spellChunks (raw : List Char) : List Chunk :=
  subtractFromZero none [] (insertTimes (Chunk.split (Constant.substituteAll (expand raw))))

/-- The expression spelled out. -/
def spell (raw : List Char) : List Char :=
  Chunk.join (spellChunks raw)

/-- The spelled-out form of a text. -/
def normalize (text : String) : String :=
  String.ofList (spell text.toList)

end Expression

end Reckoner
