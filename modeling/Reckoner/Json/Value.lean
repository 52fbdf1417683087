import Reckoner.Number.Text
import Reckoner.Text.CodePoint

/-!
# JSON values

Values as settings files hold them. Whole numbers and doubles are told apart, a text is a list of code
points, and an object keeps its entries in order; a key that comes again keeps its place and takes the
new value.
-/

namespace Reckoner

namespace Json

/-- A value without parts. -/
inductive Scalar where
  | null
  | bool (b : Bool)
  | int (n : Int)
  | float (x : Float)
  | text (s : List CodePoint)

/-- A JSON value. -/
inductive Value where
  | scalar (s : Scalar)
  | list (items : List Value)
  | object (entries : List (List CodePoint × Value))

/-- Puts a value under a key: in its place if the key is there, else at the end. The keys are compared
by `same`. -/
def insertBy {κ α : Type} (same : κ → κ → Bool) (key : κ) (value : α) :
    List (κ × α) → List (κ × α)
  | [] => [(key, value)]
  | (k, v) :: rest =>
    if same k key then (k, value) :: rest else (k, v) :: insertBy same key value rest

/-- The value under a key. -/
def findBy? {κ α : Type} (same : κ → κ → Bool) (key : κ) (entries : List (κ × α)) : Option α :=
  (entries.find? fun entry => same entry.1 key).map (·.2)

/-- The entries put together one after the other. -/
def objectOf (entries : List (List CodePoint × Value)) : List (List CodePoint × Value) :=
  entries.foldl (fun l entry => insertBy (· == ·) entry.1 entry.2 l) []

namespace Scalar

/-- The number that a scalar counts as when it is a key: truth values are one and zero. -/
def number? : Scalar → Option Rat
  | bool b => some (if b then 1 else 0)
  | int n => some n
  | float x => Number.toRat? x
  | null | text _ => none

/-- Whether two scalars are the same key. Numbers are compared by value across their kinds; NaN is the
same key as NaN. -/
def sameKey : Scalar → Scalar → Bool
  | null, null => true
  | text s, text t => s == t
  | float x, float y => x == y || (x.isNaN && y.isNaN)
  | s, t =>
    match s.number?, t.number? with
    | some a, some b => a == b
    | _, _ => false

end Scalar

end Json

end Reckoner
