import Reckoner.Failure
import Reckoner.Json.Writer
import Reckoner.Number.Typed

/-!
# Settings

Settings are an ordered dictionary of JSON values. What is stored is laid over the defaults: stored keys
take the place of equal ones and new keys follow. Usually a JSON object is stored, but a list of pairs
serves as well, and then a key may be any scalar.
-/

namespace Reckoner

open Json (Scalar Value)

/-- An ordered dictionary of settings. -/
structure Settings where
  entries : List (Scalar × Value)

namespace Settings

/-- Puts a value under a key. -/
def insert (settings : Settings) (key : Scalar) (value : Value) : Settings :=
  ⟨Json.insertBy Scalar.sameKey key value settings.entries⟩

/-- The value under a name. -/
def get? (settings : Settings) (name : List CodePoint) : Option Value :=
  Json.findBy? Scalar.sameKey (.text name) settings.entries

/-- The settings put together from pairs of a name and a value. -/
def ofPairs (pairs : List (List CodePoint × Value)) : Settings :=
  pairs.foldl (fun settings pair => settings.insert (.text pair.1) pair.2) ⟨[]⟩

/-- The settings of a calculator that has stored none. -/
def defaults : Settings :=
  ofPairs [("decimal_places", .scalar (.int 10)), ("fractions", .scalar (.bool false)),
    ("show_steps", .scalar (.bool true)), ("debug", .scalar (.bool false))]

/-- The pieces of the settings written as a JSON object; a key that is not a text is written as its value
would be. -/
def pieces (settings : Settings) : List Json.Piece :=
  Json.objectPieces 0 (settings.entries.map fun entry => Json.keyPiece entry.1 :: Json.pieces 1 entry.2)

/-- The name of a value's type in messages. -/
def typeName : Value → String
  | .scalar .null => "NoneType"
  | .scalar (.bool _) => "bool"
  | .scalar (.int _) => "int"
  | .scalar (.float _) => "float"
  | .scalar (.text _) => "str"
  | .list _ => "list"
  | .object _ => "dict"

/-- The parts of a value that can be gone through: the items of a list, the keys of an object, the
code points of a text. -/
def parts? : Value → Option (List Value)
  | .list items => some items
  | .object entries => some (entries.map fun entry => .scalar (.text entry.1))
  | .scalar (.text s) => some (s.map fun c => .scalar (.text [c]))
  | .scalar _ => none

/-- Lays the pair at position `index` of a stored list over the settings. -/
def insertPair (settings : Settings) (index : Nat) (pair : Value) :
    Except SettingsFault Settings :=
  match parts? pair with
  | none => .error (.entryNotSequence index)
  | some [key, value] =>
    match key with
    | .scalar key => .ok (settings.insert key value)
    | key => .error (.keyNotScalar (typeName key))
  | some parts => .error (.entryLength index parts.length)

/-- Lays the pairs of a stored list over the settings, the first of them at position `index`. -/
def insertPairs (settings : Settings) (index : Nat) : List Value → Except SettingsFault Settings
  | [] => .ok settings
  | pair :: rest => do insertPairs (← settings.insertPair index pair) (index + 1) rest

/-- Lays a stored value over the settings. -/
def overlay (settings : Settings) (stored : Value) : Except SettingsFault Settings :=
  match stored with
  | .object entries =>
    .ok (entries.foldl (fun settings entry => settings.insert (.text entry.1) entry.2) settings)
  | stored =>
    match parts? stored with
    | some parts => settings.insertPairs 0 parts
    | none => .error (.notEntries (typeName stored))

/-- Whether a value counts as a yes: anything but null, false, zero, and the empty texts, lists and
objects. -/
def isYes : Value → Bool
  | .scalar .null => false
  | .scalar (.bool b) => b
  | .scalar (.int n) => n != 0
  | .scalar (.float x) => x != 0
  | .scalar (.text s) => !s.isEmpty
  | .list items => !items.isEmpty
  | .object entries => !entries.isEmpty

/-- Whether a setting counts as a yes. -/
def isOn (settings : Settings) (name : List CodePoint) (byDefault : Bool) : Bool :=
  match settings.get? name with
  | some value => isYes value
  | none => byDefault

/-- The whole number that a value stands for: doubles are cut off at the point and texts are read, in which a
surrogate is neither a digit nor a blank. -/
def wholeNumber (value : Value) : Except SettingsFault Int :=
  match value with
  | .scalar (.int n) => .ok n
  | .scalar (.bool b) => .ok (if b then 1 else 0)
  | .scalar (.float x) =>
    match Number.toRat? x with
    | some r => .ok (r.num.tdiv r.den)
    | none => .error (.noWholePart (if x.isNaN then .wholeOfNaN else .wholeOfInfinity))
  | .scalar (.text s) =>
    match Number.typedWhole (s.map CodePoint.replaced) with
    | .number n => .ok n
    | .malformed => .error (.textNotWhole s)
    | .tooLong digits => .error (.integerTooLong digits)
  | value => .error (.notNumeric (typeName value))

/-- The number of decimal places to show, ten unless it is set and never below zero. -/
def decimalPlaces (settings : Settings) : Except SettingsFault Nat :=
  match settings.get? "decimal_places" with
  | some value => return (← wholeNumber value).toNat
  | none => .ok 10

/-- Whether results are shown as fractions. -/
def showsFractions (settings : Settings) : Bool :=
  settings.isOn "fractions" false

/-- Whether derivations are shown. -/
def showsSteps (settings : Settings) : Bool :=
  settings.isOn "show_steps" true

end Settings

end Reckoner
