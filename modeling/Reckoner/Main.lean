import Reckoner.Console
import Reckoner.Settings.Store

/-!
# Command line

The calculator as a program: its arguments make up one problem, and without arguments it takes one turn of the
prompt loop after the other. Settings are kept in `config.json` in the working directory and are loaded anew for
every answer.
-/

namespace Reckoner

namespace CommandLine

/-- Where the settings are kept. -/
def settingsPath : Path := .ofText "config.json"

/-- The most lists and objects that may be open at once in the settings file. -/
def depth : Nat := 1000

/-- The obstacle that keeps a file from being read. -/
def obstacle (error : IO.Error) : Obstacle :=
  match error with
  | .noFileOrDirectory _ number reason => ⟨number.toNat, reason, some settingsPath.text⟩
  | .permissionDenied _ number reason => ⟨number.toNat, reason, some settingsPath.text⟩
  | .inappropriateType _ number reason => ⟨number.toNat, reason, some settingsPath.text⟩
  | error => ⟨0, error.toString, some settingsPath.text⟩

/-- Loads the settings from their file. -/
def load : IO Console.Stored := do
  try
    return Store.settingsOf depth (← IO.FS.readFile settingsPath.text)
  catch error =>
    let obstacle := obstacle error
    return if obstacle.isMissing then .ok .defaults else .error (.unreachable obstacle)

/-- Prints a text at once. -/
def put (text : String) : IO Unit := do
  let out ← IO.getStdout
  out.putStr text
  out.flush

/-- Ends the program with a status, or says why the settings cannot be used. -/
def finish : Except SettingsFault Nat → IO UInt32
  | .ok status => return status.toUInt32
  | .error fault => do
    IO.eprintln fault.message
    return 1

/-- The next line of the input without its line feed, or its end. -/
def nextLine : IO (Option String) := do
  return (Console.lines (← (← IO.getStdin).getLine)).head?

/-- Takes turns of the prompt loop until one ends it. -/
partial def converse (settings : Settings) : IO UInt32 := do
  let turn := Console.turn (← load) settings (← nextLine)
  put turn.out
  match turn.ending with
  | some status => finish status
  | none => converse settings

end CommandLine

end Reckoner

/-- Answers the problem in the arguments, or converses at the prompt. -/
def main (arguments : List String) : IO UInt32 := do
  let stored ← Reckoner.CommandLine.load
  match arguments, stored with
  | [], .ok settings =>
    Reckoner.CommandLine.put Reckoner.Console.prompt
    Reckoner.CommandLine.converse settings
  | arguments, stored =>
    let transcript := Reckoner.Console.run stored arguments ""
    Reckoner.CommandLine.put transcript.out
    Reckoner.CommandLine.finish (transcript.status.map (·.getD 0))
