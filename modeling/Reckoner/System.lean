import Reckoner.Failure

/-!
# The system

The settings are kept in a file, and what comes of opening it is for the system to say: to which place a path
leads, whether a file there may be opened, and how much of a text is taken before the disk is full or the stack
is used up. So is how deeply nested a text the stack allows to read. The program has to live with any answer; a
`System` is a collection of answers, and nothing is supposed about them here. A place may hold a file or none.
-/

namespace Reckoner

/-- What a file is opened for. -/
inductive Access where
  | reading
  | writing
deriving DecidableEq, Repr

/-- Why a text is not written to its end: the system takes no more of it, or the stack is used up. -/
inductive Breakage where
  | obstacle (obstacle : Obstacle)
  | stack (message : String)
deriving DecidableEq, Repr

/-- The answers of the system, whose places for files are the members of a type. -/
structure System (File : Type) where
  /-- The place that a path leads to, or what is in the way, given the places that hold a file. -/
  find : Access → (File → Bool) → String → Except Obstacle File
  /-- After how many characters the writing of a text to a file breaks off, and why. -/
  breakOff : File → List Char → Option (Nat × Breakage)
  /-- The most lists and objects that may be open at once in a text that is read. -/
  depth : Nat

end Reckoner
