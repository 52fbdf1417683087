import Reckoner.Number.Text
import Reckoner.Text.Blank

/-!
# Constants

The named constants. A constant is written as a run of letters and stands for its value in parentheses
wherever the run is exactly its name and no digit follows it.
-/

namespace Reckoner

/-- A named constant. -/
inductive Constant where
  | pi
  | e
  | phi
deriving DecidableEq, Repr

namespace Constant

/-- All constants, the longest name first. -/
def all : List Constant := [phi, pi, e]

/-- The name of the constant. -/
def name : Constant → String
  | pi => "pi"
  | e => "e"
  | phi => "phi"

/-- The double nearest to the constant. -/
def value : Constant → Float
  | pi => 3.141592653589793
  | e => 2.718281828459045
  | phi => 1.618033988749895

/-- The constant of a name. -/
def ofName? (name : String) : Option Constant :=
  all.find? (·.name = name)

/-- The value in parentheses, as it replaces the name. -/
def spelled (k : Constant) : List Char :=
  '(' :: ((Number.text k.value).toList ++ [')'])

/-- Whether a text begins with an ASCII digit. -/
def startsWithDigit : List Char → Bool
  | [] => false
  | c :: _ => c.isDigit

/-- The text with the constant's value for every run of letters that is its name. -/
def substitute (k : Constant) (s : List Char) : List Char :=
  match s with
  | [] => []
  | c :: rest =>
    if c.isAlpha then
      let run := c :: rest.takeWhile Char.isAlpha
      let after := rest.dropWhile Char.isAlpha
      (if run = k.name.toList ∧ ¬startsWithDigit after then k.spelled else run) ++
        substitute k after
    else c :: substitute k rest
termination_by s.length
decreasing_by
  · have := Text.length_dropWhile_le Char.isAlpha rest
    simp only [List.length_cons]
    omega
  · simp

/-- The text with all constants replaced, one after the other. -/
def substituteAll (s : List Char) : List Char :=
  all.foldl (fun t k => k.substitute t) s

end Constant

end Reckoner
