import Reckoner.Display
import Reckoner.Equation.Quadratic
import Reckoner.Symbol.Reference

/-!
# The console

A line of input is a command or a problem: `quad a b c` solves a quadratic equation, `ref` shows the
reference page or some of its entries, and everything else is an equation or an expression. Lines come
as the arguments of a single command or one after the other at a prompt. Everything here computes what
is printed; nothing is printed here.

The settings are loaded twice: once when the console starts, to know whether derivations are shown, and
again for every result. An answer is computed from the outcome of the second load, `stored`, and the settings of
the first. The console changes no file, so that in `run` and in the prompt loop both loads have one outcome.
-/

namespace Reckoner

namespace Console

/-- The outcome of loading the settings. -/
abbrev Stored := Except SettingsFault Settings

/-- Reports a failure of the calculator. -/
def failing {α : Type} (answer : Except Failure α) : Except Abort α :=
  answer.mapError .failure

/-- The answer to a problem with the settings as they are stored. -/
def calculate (stored : Stored) (problem : String) : Except Abort String := do
  let settings ← stored.mapError .fault
  failing (Display.calculate settings problem)

/-- The lines that answer `quad` with its arguments. -/
def answerQuadratic (settings : Settings) (problem : String) (arguments : List String) :
    Except Failure (List String) :=
  match arguments with
  | [a, b, c] =>
    Except.mapError (fun cause => ⟨cause, none⟩) do
      let a ← Quadratic.readCoefficient a
      let b ← Quadratic.readCoefficient b
      let c ← Quadratic.readCoefficient c
      let solution ← Quadratic.solve ⟨a, b, c⟩
      let roots :=
        if solution.roots.isEmpty then "none"
        else String.intercalate ", " (solution.roots.map Number.display)
      return (if settings.showsSteps then solution.steps else []) ++
        ["Roots: " ++ roots, "Factored form: " ++ solution.factoredForm]
  | _ => .error ⟨.quadraticUsage, some problem⟩

/-- The lines that answer `ref` with its arguments: those entries, or all of them. -/
def answerReference (arguments : List String) : Except Failure (List String) :=
  let names := if arguments.isEmpty then Reference.entries.map (·.name) else arguments
  (names.mapM Reference.describe).mapError fun cause => ⟨cause, none⟩

/-- The lines that answer an equation or an expression. -/
def answerProblem (stored : Stored) (settings : Settings) (problem : String) :
    Except Abort (List String) := do
  if problem.toList.contains '=' ∧ settings.showsSteps then
    let solution ← failing (Linear.solve problem)
    return solution.steps ++ [← calculate stored problem]
  else return [← calculate stored problem]

/-- The word in lower case, as commands are compared. -/
def lower (word : List Char) : String :=
  String.ofList (word.map Char.toLower)

/-- The lines that answer a line of input. -/
def answer (stored : Stored) (settings : Settings) (line : String) :
    Except Abort (List String) :=
  let trimmed := Text.trim line.toList
  let problem := String.ofList trimmed
  match Text.words trimmed with
  | [] => answerProblem stored settings problem
  | first :: others =>
    let arguments := others.map String.ofList
    if lower first = "quad" then failing (answerQuadratic settings problem arguments)
    else if lower first = "ref" then failing (answerReference arguments)
    else answerProblem stored settings problem

/-- The lines that report a failure; an empty equation is not shown. -/
def report (failure : Failure) : List String :=
  [describe failure.cause.code, "Details: " ++ failure.cause.message] ++
    match failure.equation with
    | some equation => if equation.isEmpty then [] else ["Equation: " ++ equation]
    | none => []

/-- The text of printed lines. -/
def printed (lines : List String) : String :=
  String.join (lines.map (· ++ "\n"))

/-- What the console has printed, and how it ended: with an exit status, without one, or because the
settings cannot be used. -/
structure Transcript where
  out : String
  status : Except SettingsFault (Option Nat)

/-- What a line of input leads to: printed text, and whether the calculator failed on the line. -/
structure Reply where
  out : String
  failed : Bool
deriving DecidableEq, Repr

/-- The reply to a line that holds a problem. -/
def reply (stored : Stored) (settings : Settings) (line : String) : Except SettingsFault Reply :=
  match answer stored settings line with
  | .ok lines => .ok ⟨printed lines, false⟩
  | .error (.failure failure) => .ok ⟨printed (report failure), true⟩
  | .error (.fault fault) => .error fault

/-- What the prompt loop does with a line. -/
inductive Action where
  | stop
  | skip
  | solve
deriving DecidableEq, Repr

/-- The words `exit` and `quit` stop the loop, blank lines are skipped. -/
def Action.ofLine (line : String) : Action :=
  let word := Text.trim line.toList
  if lower word = "exit" ∨ lower word = "quit" then .stop
  else if word.isEmpty then .skip
  else .solve

/-- What is printed before every line is read. -/
def prompt : String := "> "

/-- A turn of the prompt loop: what is printed, and how the loop ends unless it goes on. -/
structure Turn where
  out : String
  ending : Option (Except SettingsFault Nat)

/-- The turn that the next line leads to, or the end of the input. A turn that does not end the loop prints the
prompt for the next one. -/
def turn (stored : Stored) (settings : Settings) : Option String → Turn
  | none => ⟨"", some (.ok 0)⟩
  | some line =>
    match Action.ofLine line with
    | .stop => ⟨"", some (.ok 0)⟩
    | .skip => ⟨prompt, none⟩
    | .solve =>
      match reply stored settings line with
      | .ok reply => ⟨reply.out ++ prompt, none⟩
      | .error fault => ⟨"", some (.error fault)⟩

/-- Takes one turn after the other until one ends the loop. -/
def turns (stored : Stored) (settings : Settings) : List (Option String) → Transcript
  | [] => ⟨"", .ok none⟩
  | event :: rest =>
    let now := turn stored settings event
    match now.ending with
    | some status => ⟨now.out, status.map some⟩
    | none =>
      let following := turns stored settings rest
      { following with out := now.out ++ following.out }

/-- The prompt loop over the lines of its input and the end of it. -/
def loop (stored : Stored) (settings : Settings) (lines : List String) : Transcript :=
  let transcript := turns stored settings (lines.map some ++ [none])
  { transcript with out := prompt ++ transcript.out }

/-- The lines of an input; only a line feed ends a line, and what follows the last one is a line if it
is not empty. -/
def lines (input : String) : List String :=
  let pieces := input.toList.splitOn '\n'
  (if pieces.getLast? = some [] then pieces.dropLast else pieces).map String.ofList

/-- The console: the arguments make up one problem, and without arguments the input is read at the
prompt. -/
def run (stored : Stored) (arguments : List String) (input : String) : Transcript :=
  match stored with
  | .error fault => ⟨"", .error fault⟩
  | .ok settings =>
    if arguments.isEmpty then loop stored settings (lines input)
    else
      match reply stored settings (String.intercalate " " arguments) with
      | .ok reply => ⟨reply.out, .ok (some (if reply.failed then 1 else 0))⟩
      | .error fault => ⟨"", .error fault⟩

/-- The files that an installation of the calculator consists of. -/
def requiredFiles : List String :=
  ["MathEngine.py", "Calculator.py", "ScientificEngine.py", "EquationSolver.py",
    "config_manager.py", "error.py"]

/-- Checks an installation for missing files, given those that are present. -/
def checkFiles (present : List String) : Transcript :=
  match requiredFiles.filter (!present.contains ·) with
  | [] => ⟨"", .ok none⟩
  | missing =>
    ⟨printed ("Error: The following files are missing or in the wrong location:" ::
      missing.map ("- " ++ ·)), .ok (some 1)⟩

end Console

end Reckoner
