import Reckoner.Json.Value
import Reckoner.Number.Typed
import Reckoner.Text.Quoted

/-!
# Writing JSON

The layout of settings files: one part on a line, indented by four blanks for every level, and in ASCII
throughout. Doubles are written in full form, infinities and NaN as bare words. A value is written piece
by piece, and an integer with too many digits is a piece that cannot be written: then only the pieces
before it have been (`begun`).
-/

namespace Reckoner

namespace Json

/-- A piece of a written value: its text, and whether it can be written at all. -/
structure Piece where
  text : List Char
  isWritable : Bool := true

namespace Piece

/-- The text of pieces, those that cannot be written among them. -/
def textOf (pieces : List Piece) : List Char :=
  pieces.flatMap (·.text)

/-- What has been written when a piece cannot be, or all pieces have been written. -/
def begun (pieces : List Piece) : List Char :=
  textOf (pieces.takeWhile (·.isWritable))

/-- All pieces can be written. -/
def complete (pieces : List Piece) : Bool :=
  pieces.all (·.isWritable)

/-- The pieces with a text before them, which is written together with the first piece. -/
def behind (before : List Char) : List Piece → List Piece
  | [] => [⟨before, true⟩]
  | piece :: rest => ⟨before ++ piece.text, piece.isWritable⟩ :: rest

end Piece

/-- The break before a part at the given level. -/
def lineBreak (level : Nat) : List Char :=
  '\n' :: List.replicate (4 * level) ' '

/-- An escape by four hexadecimal digits. -/
def escape (n : Nat) : List Char :=
  '\\' :: 'u' :: Text.hex 4 n

/-- The 16-bit units of a code point, each as an escape. -/
def unitEscapes (n : Nat) : List Char :=
  if n < 0x10000 then escape n
  else escape (0xD800 + (n - 0x10000) / 0x400) ++ escape (0xDC00 + (n - 0x10000) % 0x400)

/-- A code point as it stands between quotes. -/
def writePoint : CodePoint → List Char
  | .surrogate index => escape (CodePoint.surrogate index).toNat
  | .char c =>
    match c with
    | '"' => ['\\', '"']
    | '\\' => ['\\', '\\']
    | '\n' => ['\\', 'n']
    | '\r' => ['\\', 'r']
    | '\t' => ['\\', 't']
    | '\x08' => ['\\', 'b']
    | '\x0c' => ['\\', 'f']
    | c => if c.toNat < 0x20 ∨ 0x7F ≤ c.toNat then unitEscapes c.toNat else [c]

/-- A text in quotes. -/
def writeText (s : List CodePoint) : List Char :=
  '"' :: (s.flatMap writePoint ++ ['"'])

/-- A double, with bare words for infinities and NaN. -/
def writeFloat (x : Float) : List Char :=
  if x.isFinite then (Number.text x).toList else (Number.display x).toList

/-- A scalar as a value. -/
def writeScalar : Scalar → List Char
  | .null => ['n', 'u', 'l', 'l']
  | .bool true => ['t', 'r', 'u', 'e']
  | .bool false => ['f', 'a', 'l', 's', 'e']
  | .int n => (Number.ofInt n).toList
  | .float x => writeFloat x
  | .text s => writeText s

/-- A scalar as a key: its text, or what is written for it as a value. -/
def keyText : Scalar → List CodePoint
  | .text s => s
  | s => (writeScalar s).map .char

/-- An integer can be written if it does not have too many digits. -/
def Scalar.isWritable : Scalar → Bool
  | .int n => (Text.digitsOfNat n.natAbs).length ≤ Number.maxWholeDigits
  | _ => true

/-- The key of an entry with the colon behind it. -/
def keyPiece (key : Scalar) : Piece :=
  ⟨writeText (keyText key) ++ [':', ' '], key.isWritable⟩

/-- Parts one after the other, each with its text before it. -/
def separated (before between : List Char) : List (List Piece) → List Piece
  | [] => []
  | part :: rest => Piece.behind before part ++ separated between between rest

/-- The pieces of a list from those of its items. The bracket is written together with the first item if
that is a scalar; a list or an object has an empty piece in front, so that what comes before it is written
first. -/
def listPieces (level : Nat) (items : List (List Piece)) : List Piece :=
  if items.isEmpty then [⟨['[', ']'], true⟩]
  else
    ⟨[], true⟩ :: (separated ('[' :: lineBreak (level + 1)) (',' :: lineBreak (level + 1)) items ++
      [⟨lineBreak level ++ [']'], true⟩])

/-- The pieces of an object from those of its entries. -/
def objectPieces (level : Nat) (entries : List (List Piece)) : List Piece :=
  if entries.isEmpty then [⟨['{', '}'], true⟩]
  else
    ⟨'{' :: lineBreak (level + 1), true⟩ :: (separated [] (',' :: lineBreak (level + 1)) entries ++
      [⟨lineBreak level ++ ['}'], true⟩])

mutual

/-- The pieces of a value at the given level. -/
def pieces (level : Nat) : Value → List Piece
  | .scalar s => [⟨writeScalar s, s.isWritable⟩]
  | .list items => listPieces level (itemPieces (level + 1) items)
  | .object entries => objectPieces level (entryPieces (level + 1) entries)

/-- The pieces of each item of a list. -/
def itemPieces (level : Nat) : List Value → List (List Piece)
  | [] => []
  | v :: rest => pieces level v :: itemPieces level rest

/-- The pieces of each entry of an object. -/
def entryPieces (level : Nat) : List (List CodePoint × Value) → List (List Piece)
  | [] => []
  | (key, v) :: rest => (keyPiece (.text key) :: pieces level v) :: entryPieces level rest

end

end Json

end Reckoner
