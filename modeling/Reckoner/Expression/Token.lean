import Reckoner.Number.Numeral
import Reckoner.Symbol.Function
import Reckoner.Symbol.Operator
import Reckoner.Text.Blank

/-!
# Tokens

The words of an expression. A text is cut into lexemes, each as long as it can be: runs of digits and
points, names, and single other characters. Every lexeme is then read on its own, so the first one that
cannot be read gives the cause.
-/

namespace Reckoner

/-- A word of an expression. -/
inductive Token where
  | number (value : Float)
  | operator (o : Operator)
  | function (f : Function)
  | leftParen
  | rightParen
  | unknown (text : String)

/-- A piece of a text from which a token is read. -/
inductive Lexeme where
  | numeral (s : List Char)
  | name (s : List Char)
  | mark (c : Char)
deriving DecidableEq, Repr

namespace Lexeme

/-- The characters of a lexeme. -/
def text : Lexeme → List Char
  | numeral s => s
  | name s => s
  | mark c => [c]

/-- Cuts a text into lexemes. -/
def split (s : List Char) : List Lexeme :=
  match s with
  | [] => []
  | c :: rest =>
    if Numeral.isPart c then
      numeral (c :: rest.takeWhile Numeral.isPart) :: split (rest.dropWhile Numeral.isPart)
    else if c.isAlpha then
      name (c :: rest.takeWhile Char.isAlphanum) :: split (rest.dropWhile Char.isAlphanum)
    else mark c :: split rest
termination_by s.length
decreasing_by
  · have := Text.length_dropWhile_le Numeral.isPart rest
    simp only [List.length_cons]
    omega
  · have := Text.length_dropWhile_le Char.isAlphanum rest
    simp only [List.length_cons]
    omega
  · simp

/-- The lexemes of a text, put together, are the text. -/
theorem flatMap_text_split (s : List Char) : (split s).flatMap text = s := by
  fun_induction split s with
  | case1 => rfl
  | case2 c rest _ ih => simp [text, ih, List.takeWhile_append_dropWhile]
  | case3 c rest _ _ ih => simp [text, ih, List.takeWhile_append_dropWhile]
  | case4 c rest _ _ ih => simp [text, ih]

/-- Reads a run of digits and points as a number. -/
def readNumeral (s : List Char) : Except Cause Token :=
  if 1 < s.count '.' then .error .secondPoint
  else
    match Numeral.ofChars? s with
    | none => .error .lonePoint
    | some n =>
      match n.finite? with
      | some x => .ok (.number x)
      | none => .error (.literalTooBig (String.ofList s))

/-- Reads a name as a function. -/
def readName (s : List Char) : Except Cause Token :=
  match Function.ofName? (String.ofList s) with
  | some f => .ok (.function f)
  | none => .error (.unknownName (String.ofList s))

/-- Reads a single character as an operator or a parenthesis. -/
def readMark (c : Char) : Except Cause Token :=
  match Operator.ofChar? c with
  | some o => .ok (.operator o)
  | none =>
    if c = '(' then .ok .leftParen
    else if c = ')' then .ok .rightParen
    else .error (.invalidCharacter c)

/-- The token that a lexeme writes. -/
def read : Lexeme → Except Cause Token
  | numeral s => readNumeral s
  | name s => readName s
  | mark c => readMark c

end Lexeme

namespace Token

/-- Cuts a text into tokens. -/
def tokenize (s : List Char) : Except Cause (List Token) :=
  (Lexeme.split s).mapM Lexeme.read

/-- The token that a text stands for when it is not a number. -/
def ofText (text : String) : Token :=
  match Operator.ofName? text with
  | some o => operator o
  | none =>
    match Function.ofName? text with
    | some f => function f
    | none =>
      if text = "(" then leftParen
      else if text = ")" then rightParen
      else unknown text

/-- The token as it stands in messages. -/
def text : Token → String
  | number x => Number.text x
  | operator o => o.name
  | function f => f.name
  | leftParen => "("
  | rightParen => ")"
  | unknown text => text

end Token

end Reckoner
