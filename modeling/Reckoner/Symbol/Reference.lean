import Reckoner.Failure

/-!
# Reference page

One entry for every function and constant: what it is, and an example.
-/

namespace Reckoner

namespace Reference

/-- An entry of the reference page. -/
structure Entry where
  name : String
  description : String
  sample : String
deriving DecidableEq, Repr

/-- The entries, in alphabetical order of their names. -/
def entries : List Entry :=
  [⟨"abs", "Absolute value of x", "abs(-5) = 5"⟩,
    ⟨"acos", "Inverse cosine function", "acos(1) = 0"⟩,
    ⟨"asin", "Inverse sine function", "asin(1) = pi/2"⟩,
    ⟨"atan", "Inverse tangent function", "atan(1) = pi/4"⟩,
    ⟨"cbrt", "Cube root of x", "cbrt(27) = 3"⟩,
    ⟨"ceil", "Smallest integer >= x", "ceil(3.2) = 4"⟩,
    ⟨"cos", "Cosine of angle x (in radians)", "cos(0) = 1"⟩,
    ⟨"cosh", "Hyperbolic cosine", "cosh(0) = 1"⟩,
    ⟨"e", "Base of natural logarithm", "~ 2.71828"⟩,
    ⟨"exp", "e raised to the power x", "exp(1) = e"⟩,
    ⟨"floor", "Largest integer <= x", "floor(3.8) = 3"⟩,
    ⟨"ln", "Logarithm base e", "ln(e) = 1"⟩,
    ⟨"log", "Logarithm base 10", "log(100) = 2"⟩,
    ⟨"log2", "Logarithm base 2", "log2(8) = 3"⟩,
    ⟨"phi", "Golden ratio (1 + sqrt(5)) / 2", "~ 1.61803"⟩,
    ⟨"pi", "Ratio of circumference to diameter", "~ 3.14159"⟩,
    ⟨"round", "Round to nearest integer", "round(3.6) = 4"⟩,
    ⟨"sin", "Sine of angle x (in radians)", "sin(pi/2) = 1"⟩,
    ⟨"sinh", "Hyperbolic sine", "sinh(0) = 0"⟩,
    ⟨"sqrt", "Square root of x", "sqrt(16) = 4"⟩,
    ⟨"tan", "Tangent of angle x (in radians)", "tan(pi/4) = 1"⟩,
    ⟨"tanh", "Hyperbolic tangent", "tanh(0) = 0"⟩]

/-- The line of an entry. -/
def Entry.line (entry : Entry) : String :=
  entry.name ++ ": " ++ entry.description ++ " (" ++ entry.sample ++ ")"

/-- The line of the reference page for a name. -/
def describe (name : String) : Except Cause String :=
  match entries.find? (·.name = name) with
  | some entry => .ok entry.line
  | none => .error (.unknownName name)

end Reference

end Reckoner
