import Reckoner.Console
import Reckoner.Settings.Store

/-!
# Sessions

A session is a series of steps on one store: the settings path is changed, settings are loaded and saved, and
problems are answered with whatever is stored at that moment. The answers of the system may be others at every
step.
-/

namespace Reckoner

namespace Session

/-- One step of a session. -/
inductive Step where
  | moveTo (path : String)
  | load (name : String)
  | save (settings : Settings)
  | render (value : Float)
  | calculate (problem : String)
  | answer (line : String) (settings : Option Settings)
  | console (arguments : List String) (input : String)

/-- What a step answers. -/
inductive Answer where
  | done
  | settings (settings : Settings)
  | value (value : Json.Value)
  | text (text : String)
  | shown (shown : Display.Shown)
  | lines (lines : List String)
  | transcript (transcript : Console.Transcript)
  | aborted (abort : Abort)

/-- The answer of a computation that may abort. -/
def answerOf {α : Type} (wrap : α → Answer) : Except Abort α → Answer
  | .ok a => wrap a
  | .error abort => .aborted abort

/-- The value of one setting, zero if there is none; `all` stands for all settings. -/
def setting (name : String) (settings : Settings) : Answer :=
  if name = "all" then .settings settings
  else .value ((settings.get? name).getD (.scalar (.int 0)))

variable {File : Type} [DecidableEq File]

/-- Takes one step: the store after it and its answer. -/
def step (system : System File) (store : Store File) : Step → Store File × Answer
  | .moveTo path => (store.moveTo path, .done)
  | .load name => (store, answerOf (setting name) ((store.load system).mapError .fault))
  | .save settings =>
    let (saved, outcome) := store.save system settings
    (saved, answerOf (fun _ => .settings settings) outcome)
  | .render value =>
    let shown := do Display.render (← store.load system) value
    (store, answerOf .shown (shown.mapError .fault))
  | .calculate problem => (store, answerOf .text (Console.calculate (store.load system) problem))
  | .answer line settings =>
    let answered := do
      let settings ← match settings with
        | some settings => .ok settings
        | none => (store.load system).mapError .fault
      Console.answer (store.load system) settings line
    (store, answerOf .lines answered)
  | .console arguments input =>
    (store, .transcript (Console.run (store.load system) arguments input))

/-- Takes steps one after the other, each with the answers that the system gives then: the store after them and
their answers. -/
def run (store : Store File) : List (System File × Step) → Store File × List Answer
  | [] => (store, [])
  | (system, s) :: rest =>
    let (next, answer) := step system store s
    let (final, answers) := run next rest
    (final, answer :: answers)

end Session

end Reckoner
