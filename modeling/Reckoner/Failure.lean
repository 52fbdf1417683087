import Reckoner.Number.Text
import Reckoner.Text.Quoted

/-!
# Failures

A `Cause` says why an input has no answer. Each cause has a kind (which part of the calculator refused
the input), a four-digit code, and a message; the catalogue has a short text for every code. A
`Failure` is a cause together with the problem it was met in, where that is known.

Settings can also be unusable in ways that are nobody's arithmetic: such a `SettingsFault` is kept
apart, because it ends a command instead of being reported as its answer.
-/

namespace Reckoner

/-- Why a function or a power has no value at its arguments. -/
inductive Undefined where
  | outsideDomain
  | outOfRange
  | wholeOfInfinity
  | wholeOfNaN
  | cubeOutOfRange
deriving DecidableEq, Repr

/-- The text of the reason. -/
def Undefined.message : Undefined → String
  | outsideDomain => "math domain error"
  | outOfRange => "math range error"
  | wholeOfInfinity => "cannot convert float infinity to integer"
  | wholeOfNaN => "cannot convert float NaN to integer"
  | cubeOutOfRange => "(34, 'Numerical result out of range')"

/-- Why an input has no answer. -/
inductive Cause where
  -- cutting a text into tokens
  | unknownName (name : String)
  | invalidCharacter (c : Char)
  | lonePoint
  | secondPoint
  | literalTooBig (literal : String)
  -- the shape of an expression
  | emptyExpression
  | missingOpen
  | missingClose
  | operatorRun
  | functionWithoutGroup (name : String)
  | unexpectedToken (token : String)
  -- calculating
  | functionUndefined (name : String) (why : Undefined)
  | functionNotFinite (name : String)
  | divisionByZero
  | powerUndefined (base exponent : Float) (why : Undefined)
  | resultNotFinite (operator : String)
  | unknownOperator (operator : String)
  | missingArgument (function : String)
  | missingOperand (operator : String)
  | valuesLeft (count : Nat)
  -- solving equations
  | notAnEquation (equation : String)
  | quadraticUsage
  | emptySide (equation : String)
  | rightSideNotNumber (side : String)
  | invalidTerm (side : String)
  | numberTooBig (literal : String)
  | sideTooBig (side : String)
  | coefficientNotNumber (text : String)
  | coefficientNotFinite (text : String)
  | coefficientsNotFinite (a b c : Float)
  | zeroLeadingCoefficient
  | discriminantNotFinite (a b c : Float)
  -- settings
  | settingsNotSaved (why : String)
  -- anything else
  | unexpected (message : String)

/-- The part of the calculator that refused an input. -/
inductive Kind where
  | general
  | lexing
  | parsing
  | calculation
  | solving
deriving DecidableEq, Repr

namespace Cause

/-- The part of the calculator that a cause belongs to. -/
def kind : Cause → Kind
  | unknownName _ | invalidCharacter _ | lonePoint | secondPoint | literalTooBig _ => .lexing
  | emptyExpression | missingOpen | missingClose | operatorRun | functionWithoutGroup _
  | unexpectedToken _ => .parsing
  | functionUndefined .. | functionNotFinite _ | divisionByZero | powerUndefined ..
  | resultNotFinite _ | unknownOperator _ | missingArgument _ | missingOperand _
  | valuesLeft _ => .calculation
  | notAnEquation _ | quadraticUsage | emptySide _ | rightSideNotNumber _ | invalidTerm _
  | numberTooBig _ | sideTooBig _ | coefficientNotNumber _ | coefficientNotFinite _
  | coefficientsNotFinite .. | zeroLeadingCoefficient | discriminantNotFinite .. => .solving
  | settingsNotSaved _ | unexpected _ => .general

/-- The code of a cause: the first digit is the area, the rest tells the causes of an area apart. -/
def code : Cause → String
  | unknownName _ => "2000"
  | functionUndefined .. | functionNotFinite _ => "2001"
  | invalidCharacter _ | lonePoint => "3000"
  | missingOpen | missingClose => "3002"
  | divisionByZero => "3003"
  | unexpectedToken _ | unknownOperator _ => "3004"
  | operatorRun => "3005"
  | missingArgument _ | missingOperand _ => "3006"
  | powerUndefined .. | resultNotFinite _ => "3007"
  | secondPoint => "3008"
  | functionWithoutGroup _ => "3010"
  | valuesLeft _ => "3011"
  | notAnEquation _ | quadraticUsage => "3012"
  | rightSideNotNumber _ => "3020"
  | invalidTerm _ | coefficientNotNumber _ | coefficientNotFinite _ | coefficientsNotFinite .. =>
    "3021"
  | emptySide _ => "3022"
  | zeroLeadingCoefficient => "3023"
  | emptyExpression => "3024"
  | discriminantNotFinite .. => "3025"
  | literalTooBig _ | numberTooBig _ | sideTooBig _ => "3026"
  | settingsNotSaved _ => "5000"
  | unexpected _ => "9999"

/-- The first twenty characters of a literal too long to be shown whole. -/
def shortened (literal : String) : String :=
  String.ofList (literal.toList.take 20) ++ "..."

/-- The message of a cause, with the particulars of the input. -/
def message : Cause → String
  | unknownName name => "Unknown function: " ++ name
  | invalidCharacter c => "Invalid character: " ++ c.toString
  | lonePoint => "Invalid number: '.'"
  | secondPoint => "More than one '.' in one number."
  | literalTooBig literal => "Number too big: " ++ shortened literal
  | emptyExpression => "Empty expression."
  | missingOpen => "Mismatched parentheses: missing '('"
  | missingClose => "Mismatched parentheses: missing ')'"
  | operatorRun => "Invalid operator sequence"
  | functionWithoutGroup name => "Missing '(' after function: " ++ name
  | unexpectedToken token => "Unexpected token: " ++ token
  | functionUndefined name why =>
    "Mathematical error in function " ++ name ++ ": " ++ why.message
  | functionNotFinite name => "Mathematical error in function " ++ name
  | divisionByZero => "Division by zero"
  | powerUndefined base exponent why =>
    "Mathematical error: " ++ Number.text base ++ " ^ " ++ Number.text exponent ++
      " (" ++ why.message ++ ")"
  | resultNotFinite operator => "Mathematical error: result of '" ++ operator ++ "' is not finite"
  | unknownOperator operator => "Unknown operator: " ++ operator
  | missingArgument function => "Insufficient operands for function " ++ function
  | missingOperand operator => "Insufficient operands for operator " ++ operator
  | valuesLeft count => "Invalid expression (" ++ Number.ofInt count ++ " values left)"
  | notAnEquation equation =>
    "Invalid equation format: " ++ equation ++ ". Use format: ax + b = c"
  | quadraticUsage => "Usage: quad a b c"
  | emptySide equation => "One of the sides is empty: " ++ equation
  | rightSideNotNumber side => "Right side must be a number: " ++ side
  | invalidTerm side => "Invalid term in '" ++ side ++ "'"
  | numberTooBig literal => "Number too big: " ++ shortened literal
  | sideTooBig side => "Number too big in '" ++ side ++ "'"
  | coefficientNotNumber text => "Please enter a valid number, got: '" ++ text ++ "'"
  | coefficientNotFinite text => "Please enter a finite number, got: '" ++ text ++ "'"
  | coefficientsNotFinite a b c =>
    "Coefficients must be finite numbers: " ++ Number.text a ++ ", " ++ Number.text b ++ ", " ++
      Number.text c
  | zeroLeadingCoefficient => "Coefficient 'a' cannot be zero for a quadratic equation"
  | discriminantNotFinite a b c =>
    "Discriminant is not a finite number for a=" ++ Number.text a ++ ", b=" ++ Number.text b ++
      ", c=" ++ Number.text c
  | settingsNotSaved why => "Settings could not be saved: " ++ why
  | unexpected message => message

end Cause

/-- A cause, and the problem it was met in where that is known. -/
structure Failure where
  cause : Cause
  equation : Option String := none

/-- The failure of a problem: whatever was known of the equation, it is this text. -/
def Failure.inProblem (problem : String) (failure : Failure) : Failure :=
  { failure with equation := some problem }

/-- The short texts of the catalogue, by code. -/
def catalogue : List (String × String) :=
  [("2000", "Unknown function: "),
    ("2001", "Function result is not a finite number: "),
    ("3000", "Invalid character: "),
    ("3002", "Unbalanced parentheses."),
    ("3003", "Division by Zero"),
    ("3004", "Invalid Operator: "),
    ("3005", "Invalid operator sequence."),
    ("3006", "Insufficient operands for: "),
    ("3007", "Result is not a finite number: "),
    ("3008", "More than one '.' in one number."),
    ("3010", "Missing '(' after function: "),
    ("3011", "Malformed expression."),
    ("3012", "Invalid equation: "),
    ("3020", "Right side must be a number."),
    ("3021", "Invalid term or coefficient: "),
    ("3022", "One of the equation sides is empty."),
    ("3023", "Coefficient 'a' cannot be zero for a quadratic equation."),
    ("3024", "Empty expression."),
    ("3025", "Discriminant is not a finite number."),
    ("3026", "Number too big."),
    ("5000", "Settings could not be saved: "),
    ("9999", "Unexpected Error: ")]

/-- The line of the catalogue for a code. -/
def describe (code : String) : String :=
  "Error " ++ code ++ ": " ++ (catalogue.lookup code).getD "Unknown error"

/-- The code of a failure that names none. -/
def defaultCode : String := "9999"

/-- Why the system does not open a file or does not write all of a text to it: the number and the text of the
reason, and the path where the system names it. -/
structure Obstacle where
  number : Nat
  reason : String
  path : Option String
deriving DecidableEq, Repr

/-- The obstacle is that there is no such file. -/
def Obstacle.isMissing (obstacle : Obstacle) : Bool :=
  obstacle.number == 2

/-- The message of an obstacle. -/
def Obstacle.message (obstacle : Obstacle) : String :=
  "[Errno " ++ Number.ofInt obstacle.number ++ "] " ++ obstacle.reason ++
    match obstacle.path with
    | some path => ": " ++ Text.quotedString path
    | none => ""

/-- A list or an object, in which other values are nested. -/
inductive Nesting where
  | list
  | object
deriving DecidableEq, Repr

/-- Why the settings cannot be used. -/
inductive SettingsFault where
  /-- The settings path leads to no file that can be opened. -/
  | unreachable (obstacle : Obstacle)
  /-- The settings path holds a null character. -/
  | nullInPath
  /-- A list or an object is nested in too many others. -/
  | tooDeep (nesting : Nesting)
  /-- An integer of the settings has too many digits to be read. -/
  | integerTooLong (digits : Nat)
  /-- An integer of the settings has too many digits to be written. -/
  | integerNotWritten
  /-- The stack was used up where settings were written, as its own message says. -/
  | stackUsedUp (message : String)
  /-- The stored value holds no entries at all. -/
  | notEntries (type : String)
  /-- An element of the stored list is no pair, because it holds nothing. -/
  | entryNotSequence (index : Nat)
  /-- An element of the stored list is no pair, because it has another length. -/
  | entryLength (index length : Nat)
  /-- A list or an object stands where a key should be. -/
  | keyNotScalar (type : String)
  /-- A text is no whole number. -/
  | textNotWhole (text : List CodePoint)
  /-- A value is no number at all. -/
  | notNumeric (type : String)
  /-- The whole part of infinity or NaN is asked for. -/
  | noWholePart (why : Undefined)
deriving DecidableEq, Repr

/-- The message of a settings fault. -/
def SettingsFault.message : SettingsFault → String
  | unreachable obstacle => obstacle.message
  | nullInPath => "embedded null byte"
  | tooDeep nesting =>
    "maximum recursion depth exceeded while decoding a JSON " ++
      (match nesting with
        | .list => "array"
        | .object => "object") ++ " from a unicode string"
  | integerTooLong digits =>
    "Exceeds the limit (4300 digits) for integer string conversion: value has " ++
      Number.ofInt digits ++ " digits; use sys.set_int_max_str_digits() to increase the limit"
  | integerNotWritten =>
    "Exceeds the limit (4300 digits) for integer string conversion; " ++
      "use sys.set_int_max_str_digits() to increase the limit"
  | stackUsedUp message => message
  | notEntries type => "'" ++ type ++ "' object is not iterable"
  | entryNotSequence index =>
    "cannot convert dictionary update sequence element #" ++ Number.ofInt index ++ " to a sequence"
  | entryLength index length =>
    "dictionary update sequence element #" ++ Number.ofInt index ++ " has length " ++
      Number.ofInt length ++ "; 2 is required"
  | keyNotScalar type => "unhashable type: '" ++ type ++ "'"
  | textNotWhole text =>
    "invalid literal for int() with base 10: " ++
      String.ofList ((Text.quoted text).take 200)
  | notNumeric type =>
    "int() argument must be a string, a bytes-like object or a real number, not '" ++ type ++ "'"
  | noWholePart why => why.message

/-- What can end a command: a failure to report, or unusable settings. -/
inductive Abort where
  | failure (failure : Failure)
  | fault (fault : SettingsFault)

end Reckoner
