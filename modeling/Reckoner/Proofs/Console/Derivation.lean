import Mathlib
import Reckoner.Console
import Reckoner.Proofs.Outcome

/-!
# Shown and hidden derivations

The settings that the console has loaded at its start decide one thing about an answer: whether its derivation
stands before it. An equation is solved twice where the derivation is shown, once for its steps and once for the
answer, and both times it fails for the same cause (`calculate_of_solve_error`). So a problem is answered with
steps exactly if it is answered without them (`answer_settings`).
-/

namespace Reckoner

namespace Console

/-- How the outcome with a derivation compares with the one without: the lines of the answer come last, or both
are failures with one cause, hence of one kind, with one code and one message. The equations that they are
reported with need not be the same. -/
inductive Extends : Except Abort (List String) → Except Abort (List String) → Prop
  | lines (derivation l) :
    Extends (.ok (derivation ++ l)) (.ok l)
  | failure {f g : Failure} :
    f.cause = g.cause →
    Extends (.error (.failure f)) (.error (.failure g))

variable {stored settings settings' : Settings} {problem line : String}

lemma Extends.refl {α : Except Failure (List String)} : Extends (failing α) (failing α) := by
  cases α with
  | ok l => exact .lines [] l
  | error f => exact .failure rfl

/-- An equation that cannot be solved has no answer, for the same cause. -/
lemma calculate_of_solve_error {f : Failure} (h : Linear.solve problem = .error f) (hp : '=' ∈ problem.toList) :
    Display.calculate stored problem = .error (f.inProblem problem) := by
  rw [Display.calculate, if_pos (by simpa using hp), Display.answerEquation, h]
  rfl

lemma answerProblem_of_shown (hp : '=' ∈ problem.toList) (h : settings.showsSteps = true) :
    answerProblem (.ok stored) settings problem =
      failing (Linear.solve problem) >>= fun solution =>
        failing (Display.calculate stored problem) >>= fun text => .ok (solution.steps ++ [text]) := by
  rw [answerProblem, if_pos ⟨by simpa using hp, h⟩]
  rfl

lemma answerProblem_of_hidden (h : '=' ∉ problem.toList ∨ settings.showsSteps = false) :
    answerProblem (.ok stored) settings problem =
      failing (Display.calculate stored problem) >>= fun text => .ok [text] := by
  have hn : ¬(problem.toList.contains '=' ∧ settings.showsSteps = true) := by
    rintro ⟨hp, hs⟩
    rcases h with h | h
    · exact h (by simpa using hp)
    · rw [h] at hs
      cases hs
  rw [answerProblem, if_neg hn]
  rfl

/-- The answer to an equation comes behind its steps, or both computations fail for one cause. -/
lemma extends_answerProblem (h : settings.showsSteps = true) (h' : settings'.showsSteps = false) :
    Extends (answerProblem (.ok stored) settings problem) (answerProblem (.ok stored) settings' problem) := by
  have hidden : '=' ∉ problem.toList ∨ settings'.showsSteps = false := .inr h'
  rw [answerProblem_of_hidden hidden]
  by_cases hp : '=' ∈ problem.toList
  · rw [answerProblem_of_shown hp h]
    cases hs : Linear.solve problem with
    | error f =>
      rw [calculate_of_solve_error hs hp]
      exact .failure rfl
    | ok solution =>
      cases Display.calculate stored problem with
      | error f => exact .failure rfl
      | ok text => exact .lines solution.steps [text]
  · rw [answerProblem_of_hidden (.inl hp)]
    cases Display.calculate stored problem with
    | error f => exact .failure rfl
    | ok text => exact .lines [] [text]

/-- The lines of a quadratic equation without its derivation. -/
lemma extends_answerQuadratic (arguments : List String) (h : settings.showsSteps = true)
    (h' : settings'.showsSteps = false) :
    Extends (failing (answerQuadratic settings problem arguments))
      (failing (answerQuadratic settings' problem arguments)) := by
  unfold answerQuadratic
  split
  · next a b c =>
    simp only [h, h', if_true, Bool.false_eq_true, if_false]
    cases Quadratic.readCoefficient a with
    | error cause => exact .failure rfl
    | ok a =>
      cases Quadratic.readCoefficient b with
      | error cause => exact .failure rfl
      | ok b =>
        cases Quadratic.readCoefficient c with
        | error cause => exact .failure rfl
        | ok c =>
          simp only [Outcome.ok_bind]
          cases Quadratic.solve ⟨a, b, c⟩ with
          | error cause => exact .failure rfl
          | ok solution => exact .lines solution.steps _
  · exact .failure rfl

lemma answer_congr (h : settings.showsSteps = settings'.showsSteps) :
    answer (.ok stored) settings line = answer (.ok stored) settings' line := by
  simp only [answer, answerProblem, answerQuadratic, h]

lemma extends_answer (h : settings.showsSteps = true) (h' : settings'.showsSteps = false) :
    Extends (answer (.ok stored) settings line) (answer (.ok stored) settings' line) := by
  simp only [answer]
  split
  · exact extends_answerProblem h h'
  · split
    · exact extends_answerQuadratic _ h h'
    · split
      · exact .refl
      · exact extends_answerProblem h h'

/-- With the settings file loaded, an answer depends on the settings of the console only in whether steps are
shown. Where they are shown the answer without them comes last, and where there is no answer it is missing for
the same cause. -/
theorem answer_settings (stored settings settings' : Settings) (line : String) :
    (settings.showsSteps = settings'.showsSteps →
      answer (.ok stored) settings line = answer (.ok stored) settings' line) ∧
    (settings.showsSteps = true → settings'.showsSteps = false →
      Extends (answer (.ok stored) settings line) (answer (.ok stored) settings' line)) :=
  ⟨answer_congr, extends_answer⟩

/-- Settings without any entry show steps as the defaults do, and settings that turn them off hide those of an
equation. -/
theorem answer_settings_equation :
    let hidden := Settings.ofPairs [("show_steps", .scalar (.int 0))]
    (Settings.showsSteps ⟨[]⟩ = Settings.defaults.showsSteps ∧
      answer (.ok .defaults) ⟨[]⟩ "2x + 5 = 11" = answer (.ok .defaults) .defaults "2x + 5 = 11") ∧
    Settings.defaults.showsSteps = true ∧ hidden.showsSteps = false ∧
      Extends (answer (.ok .defaults) .defaults "2x + 5 = 11") (answer (.ok .defaults) hidden "2x + 5 = 11") := by
  have hsame : Settings.showsSteps ⟨[]⟩ = Settings.defaults.showsSteps := by decide
  have hshown : Settings.defaults.showsSteps = true := by decide
  have hhidden : (Settings.ofPairs [("show_steps", .scalar (.int 0))]).showsSteps = false := by decide
  exact ⟨⟨hsame, (answer_settings _ _ _ _).1 hsame⟩, hshown, hhidden, (answer_settings _ _ _ _).2 hshown hhidden⟩

end Console

end Reckoner
