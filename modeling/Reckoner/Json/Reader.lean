import Reckoner.Failure
import Reckoner.Json.Token

/-!
# Reading JSON

A JSON text is read token by token with a stack of the lists and objects that are still open. The first
token that does not fit ends the reading; so do an integer with too many digits and a list or an object
nested in too many others, which are troubles of their own kinds. How many may be open at once depends on
the stack of the reading program, so it is a parameter, `depth`.
-/

namespace Reckoner

namespace Json

/-- Why a text could not be read. -/
inductive Trouble where
  | malformed
  | integerTooLong (digits : Nat)
  | tooDeep (nesting : Nesting)
deriving DecidableEq, Repr

/-- A list or an object that is still open, its parts in reverse; an object waits for a value under the
key it has read. -/
inductive Frame where
  | list (items : List Value)
  | object (entries : List (List CodePoint × Value)) (key : List CodePoint)

/-- What may come next. -/
inductive Next where
  /-- A value. -/
  | value
  /-- A value, or the end of the list that was just opened. -/
  | firstItem
  /-- A key, or the end of the object that was just opened. -/
  | firstKey (entries : List (List CodePoint × Value))
  /-- A key after a comma. -/
  | key (entries : List (List CodePoint × Value))
  /-- The colon after a key. -/
  | colon (entries : List (List CodePoint × Value)) (key : List CodePoint)
  /-- A comma or the end of what is open, after this value. -/
  | after (value : Value)

/-- The state of reading: what is open, innermost first, and what may come next. -/
structure State where
  frames : List Frame
  next : Next

/-- The scalar that an integer token writes. -/
def integer (negative : Bool) (digits : List Char) : Except Trouble Scalar :=
  if Number.maxWholeDigits < digits.length then .error (.integerTooLong digits.length)
  else
    let n : Int := Text.natOfDigits digits
    .ok (.int (if negative then -n else n))

/-- The state after the start of a list or an object, if not too many are open already. -/
def enter (depth : Nat) (frames : List Frame) (nesting : Nesting) (state : State) :
    Except Trouble State :=
  if frames.length < depth then .ok state else .error (.tooDeep nesting)

/-- Begins a value. -/
def begin (depth : Nat) (frames : List Frame) (t : Token) : Except Trouble State :=
  match t with
  | .openList => enter depth frames .list ⟨.list [] :: frames, .firstItem⟩
  | .openObject => enter depth frames .object ⟨frames, .firstKey []⟩
  | .scalar s => .ok ⟨frames, .after (.scalar s)⟩
  | .integer negative digits => return ⟨frames, .after (.scalar (← integer negative digits))⟩
  | _ => .error .malformed

/-- Reads one token. -/
def step (depth : Nat) (state : State) (t : Token) : Except Trouble State :=
  match state.next, state.frames, t with
  | .firstItem, .list [] :: frames, .closeList => .ok ⟨frames, .after (.list [])⟩
  | .firstItem, frames, t => begin depth frames t
  | .value, frames, t => begin depth frames t
  | .firstKey _, frames, .closeObject => .ok ⟨frames, .after (.object [])⟩
  | .firstKey entries, frames, .scalar (.text key) => .ok ⟨frames, .colon entries key⟩
  | .key entries, frames, .scalar (.text key) => .ok ⟨frames, .colon entries key⟩
  | .colon entries key, frames, .colon => .ok ⟨.object entries key :: frames, .value⟩
  | .after v, .list items :: frames, .comma => .ok ⟨.list (v :: items) :: frames, .value⟩
  | .after v, .list items :: frames, .closeList =>
    .ok ⟨frames, .after (.list (v :: items).reverse)⟩
  | .after v, .object entries key :: frames, .comma => .ok ⟨frames, .key ((key, v) :: entries)⟩
  | .after v, .object entries key :: frames, .closeObject =>
    .ok ⟨frames, .after (.object (objectOf ((key, v) :: entries).reverse))⟩
  | _, _, _ => .error .malformed

/-- The value that the tokens write. -/
def ofTokens (depth : Nat) (tokens : List Token) : Except Trouble Value := do
  match ← tokens.foldlM (step depth) ⟨[], .value⟩ with
  | ⟨[], .after v⟩ => return v
  | _ => throw .malformed

/-- Reads a JSON text. -/
def read (depth : Nat) (text : String) : Except Trouble Value :=
  ofTokens depth (tokens text.toList)

end Json

end Reckoner
