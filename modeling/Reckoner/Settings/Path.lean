/-!
# Settings paths

Where the settings are kept is named by a path. A path is held in plain form: slashes that repeat, slashes
at the end, and steps `.` to the directory one is in already are left out. What a path leads to is for the
system to say, which is asked with the plain text of the path.
-/

namespace Reckoner

/-- A path in plain form: the slashes that make it absolute, and its steps. -/
structure Path where
  root : String
  steps : List String
deriving DecidableEq, Repr

namespace Path

/-- The slashes at the start of a path that are kept: two stay two, and any other number is one. -/
def rootOf (text : List Char) : String :=
  match (text.takeWhile (· = '/')).length with
  | 0 => ""
  | 2 => "//"
  | _ => "/"

/-- The path that a text names, in plain form. -/
def ofText (text : String) : Path :=
  let pieces := (text.toList.splitOn '/').map String.ofList
  ⟨rootOf text.toList, pieces.filter fun piece => piece ≠ "" ∧ piece ≠ "."⟩

/-- The text of a path; a path without any step is `.` unless it is absolute. -/
def text (path : Path) : String :=
  if path.root = "" ∧ path.steps = [] then "."
  else path.root ++ String.intercalate "/" path.steps

end Path

end Reckoner
