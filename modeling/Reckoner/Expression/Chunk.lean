import Reckoner.Symbol.Operator
import Reckoner.Text.Blank

/-!
# Chunks

The pieces in which an expression is spelled out: a name, the longest numeral with at most one point,
or a single other character. Cutting a text into chunks loses nothing.
-/

namespace Reckoner

/-- A piece of an expression. -/
inductive Chunk where
  | name (letters : List Char)
  | number (digits : List Char)
  | mark (c : Char)
deriving DecidableEq, Repr

namespace Chunk

/-- The characters of a chunk. -/
def text : Chunk → List Char
  | name letters => letters
  | number digits => digits
  | mark c => [c]

/-- The characters of a list of chunks. -/
def join (chunks : List Chunk) : List Char :=
  chunks.flatMap text

/-- A point and the digits after it, at the start of a text. -/
def fraction : List Char → List Char
  | '.' :: rest => '.' :: rest.takeWhile Char.isDigit
  | _ => []

/-- What follows the point and digits at the start of a text. -/
def afterFraction : List Char → List Char
  | '.' :: rest => rest.dropWhile Char.isDigit
  | s => s

theorem length_afterFraction_le (s : List Char) : (afterFraction s).length ≤ s.length := by
  unfold afterFraction
  split
  · have := Text.length_dropWhile_le Char.isDigit
    exact Nat.le_succ_of_le (this _)
  · exact Nat.le_refl _

/-- Cuts a text into chunks, each as long as it can be. -/
def split (s : List Char) : List Chunk :=
  match s with
  | [] => []
  | c :: rest =>
    if c.isAlpha then
      name (c :: rest.takeWhile Char.isAlphanum) :: split (rest.dropWhile Char.isAlphanum)
    else if c.isDigit then
      let after := rest.dropWhile Char.isDigit
      number (c :: (rest.takeWhile Char.isDigit ++ fraction after)) :: split (afterFraction after)
    else if c = '.' then
      number (c :: rest.takeWhile Char.isDigit) :: split (rest.dropWhile Char.isDigit)
    else mark c :: split rest
termination_by s.length
decreasing_by
  · have := Text.length_dropWhile_le Char.isAlphanum rest
    simp only [List.length_cons]
    omega
  · have := Text.length_dropWhile_le Char.isDigit rest
    have := length_afterFraction_le (rest.dropWhile Char.isDigit)
    simp only [List.length_cons]
    omega
  · have := Text.length_dropWhile_le Char.isDigit rest
    simp only [List.length_cons]
    omega
  · simp

/-- Whether a chunk is a name. -/
def isName : Chunk → Bool
  | name _ => true
  | _ => false

/-- Whether a chunk is a numeral; a lone point counts as one here. -/
def isNumber : Chunk → Bool
  | number _ => true
  | _ => false

/-- Whether a chunk writes an operator. -/
def isOperator : Chunk → Bool
  | mark c => (Operator.ofChar? c).isSome
  | _ => false

@[simp] theorem join_nil : join [] = [] := rfl

@[simp] theorem join_cons (k : Chunk) (l : List Chunk) : join (k :: l) = k.text ++ join l := by
  simp [join]

theorem fraction_append_afterFraction (s : List Char) : fraction s ++ afterFraction s = s := by
  unfold fraction afterFraction
  split <;> simp_all [List.takeWhile_append_dropWhile]

/-- The chunks of a text, put together, are the text. -/
theorem join_split (s : List Char) : join (split s) = s := by
  fun_induction split s with
  | case1 => rfl
  | case2 c rest _ ih => simp [text, ih, List.takeWhile_append_dropWhile]
  | case3 c rest _ _ after ih =>
    simp only [join_cons, text, ih, List.cons_append, List.append_assoc,
      fraction_append_afterFraction]
    simp [after, List.takeWhile_append_dropWhile]
  | case4 rest _ _ ih => simp [text, ih, List.takeWhile_append_dropWhile]
  | case5 c rest _ _ _ ih => simp [text, ih]

end Chunk

end Reckoner
