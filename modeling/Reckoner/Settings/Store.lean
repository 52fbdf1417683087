import Reckoner.Json.Reader
import Reckoner.Settings.Basic
import Reckoner.Settings.Path
import Reckoner.System

/-!
# Stored settings

A store holds files and the path under which the settings are kept. Loading lays what is stored over the
defaults; a missing file or one that is not JSON leaves the defaults as they are. Saving empties the file and
writes the settings to it, so that a save which fails after the file was opened leaves the beginning of its text
there. A path that the system does not open is a fault of both.
-/

namespace Reckoner

/-- The texts of the files that there are, and the path of the settings. -/
structure Store (File : Type) where
  path : Path
  files : List (File × String)

namespace Store

/-- The settings that a text stores, laid over the defaults. -/
def settingsOf (depth : Nat) (text : String) : Except SettingsFault Settings :=
  match Json.read depth text with
  | .ok stored => Settings.defaults.overlay stored
  | .error .malformed => .ok .defaults
  | .error (.integerTooLong digits) => .error (.integerTooLong digits)
  | .error (.tooDeep nesting) => .error (.tooDeep nesting)

/-- What is reported when a save fails: an obstacle is a failure that names the path. -/
def refusal (path : Path) : SettingsFault → Abort
  | .unreachable obstacle => .failure ⟨.settingsNotSaved obstacle.message, some path.text⟩
  | fault => .fault fault

/-- What is reported when writing breaks off. -/
def brokenOff (path : Path) : Breakage → Abort
  | .obstacle obstacle => refusal path (.unreachable obstacle)
  | .stack message => .fault (.stackUsedUp message)

variable {File : Type} [DecidableEq File]

/-- Keeps the settings under another path from now on. -/
def moveTo (store : Store File) (path : String) : Store File :=
  { store with path := .ofText path }

/-- Whether there is a file at a place. -/
def isFile (store : Store File) (file : File) : Bool :=
  (store.files.lookup file).isSome

/-- The place of the settings. -/
def find (store : Store File) (system : System File) (access : Access) : Except SettingsFault File :=
  if store.path.text.toList.contains '\x00' then .error .nullInPath
  else (system.find access store.isFile store.path.text).mapError .unreachable

/-- The store with this text in a file and the other files as they are. -/
def put (store : Store File) (file : File) (text : List Char) : Store File :=
  { store with files := (file, String.ofList text) :: store.files.filter (·.1 ≠ file) }

/-- Loads the settings. -/
def load (store : Store File) (system : System File) : Except SettingsFault Settings :=
  match store.find system .reading with
  | .ok file =>
    match store.files.lookup file with
    | some text => settingsOf system.depth text
    | none => .ok .defaults
  | .error (.unreachable obstacle) =>
    if obstacle.isMissing then .ok .defaults else .error (.unreachable obstacle)
  | .error fault => .error fault

/-- Saves the settings: the store afterwards, and what is reported if it does not succeed. -/
def save (store : Store File) (system : System File) (settings : Settings) :
    Store File × Except Abort Unit :=
  match store.find system .writing with
  | .error fault => (store, .error (refusal store.path fault))
  | .ok file =>
    let text := Json.Piece.begun settings.pieces
    match system.breakOff file text with
    | some (length, breakage) =>
      (store.put file (text.take length), .error (brokenOff store.path breakage))
    | none =>
      (store.put file text,
        if Json.Piece.complete settings.pieces then .ok () else .error (.fault .integerNotWritten))

end Store

end Reckoner
