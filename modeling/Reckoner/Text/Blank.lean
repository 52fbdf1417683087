/-!
# Blank characters

White space in everything a user types: the white space of Unicode 14 and the four information
separators U+001C to U+001F. Texts are lists of characters; this module drops blanks, trims them at
both ends, and cuts a text into the words between them.
-/

namespace Reckoner

namespace Text

/-- Membership of a code point in a list of closed ranges. -/
def inRanges (ranges : List (Nat × Nat)) (n : Nat) : Bool :=
  ranges.any fun r => r.1 ≤ n && n ≤ r.2

/-- The code points of the blank characters, as closed ranges, ascending and apart. -/
def blankRanges : List (Nat × Nat) :=
  [(0x09, 0x0D), (0x1C, 0x20), (0x85, 0x85), (0xA0, 0xA0), (0x1680, 0x1680), (0x2000, 0x200A),
    (0x2028, 0x2029), (0x202F, 0x202F), (0x205F, 0x205F), (0x3000, 0x3000)]

/-- A blank separates words and carries no meaning of its own. -/
def isBlank (c : Char) : Bool :=
  inRanges blankRanges c.toNat

/-- The text without any of its blanks. -/
def dropBlanks (s : List Char) : List Char :=
  s.filter fun c => !isBlank c

/-- The text without the characters of a class at its two ends. -/
def trimBy (p : Char → Bool) (s : List Char) : List Char :=
  ((s.dropWhile p).reverse.dropWhile p).reverse

/-- The text without the blanks at its two ends. -/
def trim (s : List Char) : List Char :=
  trimBy isBlank s

theorem length_dropWhile_le (p : Char → Bool) (s : List Char) :
    (s.dropWhile p).length ≤ s.length :=
  (List.dropWhile_suffix p).length_le

/-- A run of a class ends where a character outside the class, or nothing, follows. -/
theorem takeWhile_append_eq {p : Char → Bool} {l s : List Char}
    (hl : ∀ c ∈ l, p c) (hs : ∀ c ∈ s.head?, p c = false) : (l ++ s).takeWhile p = l := by
  rw [List.takeWhile_append_of_pos hl]
  cases s with
  | nil => simp
  | cons c s => simp [hs c rfl]

theorem dropWhile_append_eq {p : Char → Bool} {l s : List Char}
    (hl : ∀ c ∈ l, p c) (hs : ∀ c ∈ s.head?, p c = false) : (l ++ s).dropWhile p = s := by
  rw [List.dropWhile_append_of_pos hl]
  cases s with
  | nil => rfl
  | cons c s => simp [hs c rfl]

/-- The maximal runs of characters that are not blank, in order. -/
def words (s : List Char) : List (List Char) :=
  match s with
  | [] => []
  | c :: rest =>
    if isBlank c then words rest
    else (c :: rest.takeWhile (!isBlank ·)) :: words (rest.dropWhile (!isBlank ·))
termination_by s.length
decreasing_by
  · simp
  · have := length_dropWhile_le (!isBlank ·) rest
    simp only [List.length_cons]
    omega

@[simp] theorem dropBlanks_nil : dropBlanks [] = [] := rfl

theorem dropBlanks_cons_blank {c : Char} {s : List Char} (h : isBlank c = true) :
    dropBlanks (c :: s) = dropBlanks s :=
  List.filter_cons_of_neg (by simp [h])

theorem dropBlanks_cons {c : Char} {s : List Char} (h : isBlank c = false) :
    dropBlanks (c :: s) = c :: dropBlanks s :=
  List.filter_cons_of_pos (by simp [h])

theorem dropBlanks_append (s t : List Char) :
    dropBlanks (s ++ t) = dropBlanks s ++ dropBlanks t := by
  simp [dropBlanks]

end Text

end Reckoner
