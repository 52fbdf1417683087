import Reckoner.Number.Numeral
import Reckoner.Symbol.Operator
import Reckoner.Text.Blank

/-!
# Linear equations

An equation `ax + b = c` has a sum of terms on the left and a number on the right. A term is a run of
signs followed by a numeral, by `x`, or by both with or without an asterisk between them; the first
term may go without a sign. The solution comes with its derivation in four lines, written from the same
numbers as the answer.
-/

namespace Reckoner

namespace Linear

/-- A term of the left side: its sign, the numeral if one is written, and whether it has the variable. -/
structure Term where
  negative : Bool
  numeral : Option (List Char)
  hasVariable : Bool
deriving DecidableEq, Repr

/-- A plus or minus. -/
def isSign (c : Char) : Bool :=
  c = '+' || c = '-'

/-- A text that is a numeral of the problem. -/
def isNumeral (s : List Char) : Bool :=
  (Numeral.ofChars? s).isSome

/-- The numeral of a term without its signs and whether it has the variable, if it is well formed. -/
def body? (s : List Char) : Option (Option (List Char) × Bool) :=
  let digits := s.takeWhile Numeral.isPart
  let rest := s.dropWhile Numeral.isPart
  if s = ['x'] then some (none, true)
  else if isNumeral digits then
    if rest.isEmpty then some (some digits, false)
    else if rest = ['x'] ∨ rest = ['*', 'x'] then some (some digits, true)
    else none
  else none

/-- The terms of a text in which every term has a run of signs before it. -/
def signedTerms? (s : List Char) : Option (List Term) :=
  match s with
  | [] => some []
  | c :: rest =>
    if isSign c then do
      let signs := c :: rest.takeWhile isSign
      let after := rest.dropWhile isSign
      let (numeral, hasVariable) ← body? (after.takeWhile (!isSign ·))
      let terms ← signedTerms? (after.dropWhile (!isSign ·))
      return ⟨signs.count '-' % 2 = 1, numeral, hasVariable⟩ :: terms
    else none
termination_by s.length
decreasing_by
  have := Text.length_dropWhile_le isSign rest
  have := Text.length_dropWhile_le (!isSign ·) (rest.dropWhile isSign)
  simp only [List.length_cons]
  omega

/-- The terms of a left side without blanks. -/
def terms? (s : List Char) : Option (List Term) :=
  match s with
  | [] => none
  | c :: rest => signedTerms? (if isSign c then c :: rest else '+' :: c :: rest)

/-- The value of a numeral that passed the grammar, unless it is too big. `shown` is its text with any
sign it had. -/
def finiteNumber (digits shown : List Char) : Except Cause Float :=
  match (Numeral.ofChars? digits).bind Numeral.finite? with
  | some x => .ok x
  | none => .error (.numberTooBig (String.ofList shown))

/-- The size of the number in a term: a bare variable counts one. -/
def Term.size (t : Term) : Except Cause Float :=
  match t.numeral with
  | some digits => finiteNumber digits digits
  | none => .ok 1

/-- The number in a term, with its sign. -/
def Term.value (t : Term) : Except Cause Float := do
  let size ← t.size
  return (if t.negative then -1 else 1) * size

/-- The coefficient of the variable and the constant of a left side. -/
structure Side where
  coefficient : Float
  constant : Float

/-- Adds a term to the sums before it. -/
def Side.add (side : Side) (t : Term) : Except Cause Side := do
  let x ← t.value
  if t.hasVariable then return { side with coefficient := side.coefficient + x }
  else return { side with constant := side.constant + x }

/-- The terms summed up from left to right. -/
def Side.ofTerms (terms : List Term) : Except Cause Side :=
  terms.foldlM Side.add ⟨0, 0⟩

/-- Reads a left side. -/
def Side.read (left : List Char) : Except Cause Side :=
  match terms? (Text.dropBlanks left) with
  | none => .error (.invalidTerm (String.ofList left))
  | some terms => do
    let side ← ofTerms terms
    if side.coefficient.isFinite ∧ side.constant.isFinite then return side
    else throw (.sideTooBig (String.ofList left))

/-- Splits the sign off a right side without blanks, which is a numeral with an optional sign. -/
def unsigned (s : List Char) : List Char :=
  match s with
  | c :: rest => if isSign c then rest else s
  | [] => []

/-- The value of a right side without blanks. -/
def rightValue (s : List Char) : Except Cause Float := do
  let size ← finiteNumber (unsigned s) s
  return if s.head? = some '-' then -size else size

/-- An equation as numbers: the left side, the right side, and the right side less the constant. -/
structure Form where
  side : Side
  right : Float
  difference : Float

/-- Reads the two trimmed sides of an equation; `rightDigits` is the right side without blanks. -/
def Form.read (left rightDigits : List Char) : Except Cause Form := do
  let side ← Side.read left
  let right ← rightValue rightDigits
  let difference ← Operator.subtract.apply right side.constant
  return ⟨side, right, difference⟩

/-- The answer to a linear equation: infinite for an identity and NaN for a contradiction. -/
structure Solution where
  value : Float
  steps : List String

/-- A number as it is added to what stands before it. -/
def signed (x : Float) : String :=
  if x < 0 then "- " ++ Number.display (-x) else "+ " ++ Number.display x

/-- The first three lines of a derivation. -/
def Form.steps (form : Form) (equation : String) : List String :=
  let a := Number.display form.side.coefficient
  let b := form.side.constant
  let reduced := a ++ "x = " ++ Number.display form.difference
  ["Original equation: " ++ equation,
    "Simplified form: " ++ a ++ "x " ++ signed b ++ " = " ++ Number.display form.right,
    if b < 0 then "Add " ++ Number.display (-b) ++ " to both sides: " ++ reduced
    else "Subtract " ++ Number.display b ++ " from both sides: " ++ reduced]

/-- The solution of an equation in numbers. -/
def Form.solve (form : Form) (equation : String) : Except Cause Solution :=
  let steps := form.steps equation
  let a := form.side.coefficient
  if a == 0 then
    if form.side.constant == form.right then
      .ok ⟨1 / 0, steps ++ ["Infinite solutions (identity)"]⟩
    else .ok ⟨0 / 0, steps ++ ["No solution (contradiction)"]⟩
  else do
    let value ← Operator.divide.apply form.difference a
    return ⟨value, steps ++
      ["Divide both sides by " ++ Number.display a ++ ": x = " ++ Number.display value]⟩

/-- Cuts an equation into its two sides and reads them. -/
def Form.ofEquation (equation : List Char) : Except Cause Form :=
  let whole := String.ofList equation
  if equation.count '=' ≠ 1 then .error (.notAnEquation whole)
  else
    let left := Text.trim (equation.takeWhile (· ≠ '='))
    let right := Text.trim ((equation.dropWhile (· ≠ '=')).drop 1)
    if left.isEmpty ∨ right.isEmpty then .error (.emptySide whole)
    else
      let digits := Text.dropBlanks right
      if isNumeral (unsigned digits) then Form.read left digits
      else .error (.rightSideNotNumber (String.ofList right))

/-- Solves an equation. What is wrong with the equation names it; a quotient that is not finite does
not. -/
def solve (equation : String) : Except Failure Solution := do
  let form ← (Form.ofEquation equation.toList).mapError fun cause => ⟨cause, some equation⟩
  (form.solve equation).mapError fun cause => ⟨cause, none⟩

/-- The texts in quotes between square brackets. -/
def quotedList (items : List String) : String :=
  "[" ++ String.intercalate ", " (items.map Text.quotedString) ++ "]"

/-- A solution shown as data. -/
def Solution.shown (s : Solution) : String :=
  "LinearSolution(value=" ++ Number.text s.value ++ ", steps=" ++ quotedList s.steps ++ ")"

end Linear

end Reckoner
