import Mathlib
import Reckoner.Proofs.Console.Derivation
import Reckoner.Proofs.Display.Denoted
import Reckoner.Proofs.Equation.Ruling
import Reckoner.Proofs.Expression.Safety
import Reckoner.Proofs.Settings.Loading

/-!
# The outcome of a problem

What comes of a problem is settled in a fixed order (`Answered`): first the problem itself is refused, then an equation
without a single solution is told apart, and only then the settings count. Places that are no whole number are a failure
of the problem, whatever the result and the way to show it; otherwise there is an answer, and its sign says whether the
shown text was rounded. With an object in the settings file nothing else can come of a problem
(`calculate_eq_iff_answered`).
-/

namespace Reckoner

open Json (Scalar Value findBy? overlaid)

namespace Json

variable {key : List CodePoint} {v : Value} {entries base : List (List CodePoint × Value)}

lemma findBy?_eq_lookup (key : List CodePoint) (entries : List (List CodePoint × Value)) :
    findBy? (· == ·) key entries = entries.lookup key := by
  induction entries with
  | nil => rfl
  | cons entry entries ih =>
    rw [findBy?_cons, List.lookup_cons, ih, BEq.comm]
    cases key == entry.1 <;> rfl

/-- A value that entries are laid over is the new one if there is one. -/
lemma findBy?_overlaid (h : findBy? (· == ·) key base = some v) :
    findBy? (· == ·) key (overlaid (· == ·) base entries) = some ((entries.lookup key).getD v) := by
  rw [overlaid]
  generalize entries.filter _ = new
  induction base with
  | nil => cases h
  | cons entry base ih =>
    rw [findBy?_cons] at h
    rw [List.map_cons, List.cons_append, findBy?_cons]
    split at h
    · next hkey =>
      obtain rfl := eq_of_beq hkey
      rw [if_pos hkey, Option.some.inj h, findBy?_eq_lookup]
    · next hkey => rw [if_neg hkey, ih h]

end Json

namespace Settings

/-- The value that a settings file gives for the decimal places, or the default. -/
def storedPlaces (entries : List (List CodePoint × Value)) : Value :=
  (entries.lookup (CodePoint.ofString "decimal_places")).getD (.scalar (.int 10))

lemma get?_ofEntries (name : List CodePoint) (entries : List (List CodePoint × Value)) :
    (ofEntries entries).get? name = findBy? (· == ·) name entries := by
  rw [get?, ofEntries, Json.findBy?_map Scalar.text]
  rfl

/-- The decimal places are the whole number that the stored value stands for, and not below zero. -/
lemma decimalPlaces_laidOver (entries : List (List CodePoint × Value)) :
    ((ofEntries entries).laidOver defaults).decimalPlaces = (wholeNumber (storedPlaces entries)).map Int.toNat := by
  have hvalue : ((ofEntries entries).laidOver defaults).get? "decimal_places" = some (storedPlaces entries) := by
    rw [defaults_eq, laidOver_ofEntries, get?_ofEntries, Json.findBy?_overlaid rfl, storedPlaces]
  rw [decimalPlaces, hvalue]
  simp only
  cases wholeNumber (storedPlaces entries) <;> rfl

end Settings

namespace Display

/-- What the problem comes to before the settings are looked at: an equation is solved, anything else is evaluated. -/
def worked (problem : String) : Except Failure Float :=
  if '=' ∈ problem.toList then (Linear.solve problem).map (·.value) else Expression.evaluate problem

/-- What comes of a problem, by the entries in the settings file. -/
inductive Answered (entries : List (List CodePoint × Value)) (problem : String) : Except Abort String → Prop
  | refused {f} :
    worked problem = .error f →
    Answered entries problem (.error (.failure ⟨f.cause, some problem⟩))
  | identity {left right} :
    Linear.Written problem.toList left right → Linear.Measured left right →
    (Linear.difference left right).isFinite →
    left.coefficient == 0 → left.constant == right.value →
    Answered entries problem (.ok "Inf. Solutions")
  | contradiction {left right} :
    Linear.Written problem.toList left right → Linear.Measured left right →
    (Linear.difference left right).isFinite →
    left.coefficient == 0 → ¬left.constant == right.value →
    Answered entries problem (.ok "No Solution")
  | unusable {x fault} :
    worked problem = .ok x → x.isFinite →
    Settings.wholeNumber (Settings.storedPlaces entries) = .error fault →
    Answered entries problem
      (.error (.failure ⟨.unexpected (String.ofList (Text.trim fault.message.toList)), some problem⟩))
  | shown {x n shown} :
    worked problem = .ok x → x.isFinite →
    Settings.wholeNumber (Settings.storedPlaces entries) = .ok n →
    render ((Settings.ofEntries entries).laidOver .defaults) x = .ok shown →
    Answered entries problem
      (.ok ((if '=' ∈ problem.toList then "x " else "") ++ (if shown.rounded then "≈ " else "= ") ++ shown.text))

variable {entries : List (List CodePoint × Value)} {problem : String} {settings : Settings} {x : Float} {f : Failure}
  {outcome : Except Abort String}

/-- A problem with a value is an equation that was solved or an expression. -/
lemma cases_of_worked (h : worked problem = .ok x) :
    ('=' ∈ problem.toList ∧ ∃ solution, Linear.solve problem = .ok solution ∧ solution.value = x) ∨
      '=' ∉ problem.toList ∧ Expression.evaluate problem = .ok x := by
  rw [worked] at h
  split at h
  · next hp =>
    cases hsolve : Linear.solve problem with
    | error f =>
      rw [hsolve] at h
      cases h
    | ok solution =>
      rw [hsolve] at h
      exact .inl ⟨hp, solution, rfl, Except.ok.inj h⟩
  · next hp => exact .inr ⟨hp, h⟩

lemma calculate_of_worked_error (h : worked problem = .error f) :
    calculate settings problem = .error ⟨f.cause, some problem⟩ := by
  rw [worked] at h
  split at h
  · next hp =>
    cases hsolve : Linear.solve problem with
    | ok solution =>
      rw [hsolve] at h
      cases h
    | error g =>
      rw [hsolve] at h
      cases h
      exact Console.calculate_of_solve_error hsolve hp
  · next hp =>
    obtain ⟨c, -, rfl⟩ := Outcome.mapError_eq_error.mp h
    rw [calculate, if_neg (by simpa using hp), answerExpression, h]
    rfl

/-- The answer to a solved equation goes by its value. -/
lemma calculate_of_solve {solution : Linear.Solution} (hp : '=' ∈ problem.toList)
    (h : Linear.solve problem = .ok solution) :
    calculate settings problem =
      if solution.value.isInf then .ok "Inf. Solutions"
      else if solution.value.isNaN then .ok "No Solution"
      else renderFor settings problem solution.value >>= fun shown =>
        .ok ((if shown.rounded then "x ≈ " else "x = ") ++ shown.text) := by
  rw [calculate, if_pos (by simpa using hp), answerEquation, h]
  rfl

lemma mem_of_written {left : Linear.LeftSide} {right : Linear.RightSide}
    (h : Linear.Written problem.toList left right) : '=' ∈ problem.toList := by
  obtain ⟨hs, -, -⟩ := h
  rw [hs.text]
  exact List.mem_append_right _ List.mem_cons_self

/-- A text that is ruled to have a value is solved with this value. -/
lemma exists_solution_of_ruling {v : Float} (h : Linear.Ruling problem.toList (.ok v)) :
    ∃ solution, Linear.solve problem = .ok solution ∧ solution.value = v := by
  have hworth := (Linear.solve_iff_ruling problem _).mpr h
  cases hsolve : Linear.solve problem with
  | error f =>
    rw [hsolve] at hworth
    cases hworth
  | ok solution =>
    rw [hsolve] at hworth
    exact ⟨solution, rfl, Except.ok.inj hworth⟩

/-- A finite value is shown with the settings. -/
lemma calculate_of_worked (h : worked problem = .ok x) (hx : x.isFinite) :
    calculate settings problem = renderFor settings problem x >>= fun shown =>
      .ok ((if '=' ∈ problem.toList then "x " else "") ++ (if shown.rounded then "≈ " else "= ") ++ shown.text) := by
  obtain ⟨a, ha⟩ := (Number.isFinite_iff x).mp hx
  obtain ⟨hnan, hinf⟩ := Number.not_isNaN_of_toRat? ha
  obtain ⟨hp, solution, hsolve, rfl⟩ | ⟨hp, hvalue⟩ := cases_of_worked h
  · rw [calculate_of_solve hp hsolve, hinf, hnan, if_neg Bool.false_ne_true, if_neg Bool.false_ne_true, if_pos hp]
    congr 1
    funext shown
    cases shown.rounded <;> rfl
  · rw [calculate, if_neg (by simpa using hp), answerExpression, hvalue, if_neg hp, Outcome.ok_bind]
    rfl

lemma calculate_of_answered (h : Answered entries problem outcome) :
    Console.failing (calculate ((Settings.ofEntries entries).laidOver .defaults) problem) = outcome := by
  have hplaces := Settings.decimalPlaces_laidOver entries
  cases h with
  | refused h =>
    rw [calculate_of_worked_error h]
    rfl
  | identity hw hm hd ha hb =>
    obtain ⟨solution, hsolve, hvalue⟩ := exists_solution_of_ruling (.identity hw hm hd ha hb)
    rw [calculate_of_solve (mem_of_written hw) hsolve, hvalue]
    rfl
  | contradiction hw hm hd ha hb =>
    obtain ⟨solution, hsolve, hvalue⟩ := exists_solution_of_ruling (.contradiction hw hm hd ha hb)
    rw [calculate_of_solve (mem_of_written hw) hsolve, hvalue]
    rfl
  | unusable h hx hfault =>
    rw [calculate_of_worked h hx, renderFor, render, hplaces, hfault]
    rfl
  | shown h hx _ hshown =>
    rw [calculate_of_worked h hx, renderFor, hshown]
    rfl

/-- A problem is worked out to a finite value, or it is an identity or a contradiction. -/
lemma isFinite_of_worked (entries : List (List CodePoint × Value)) (h : worked problem = .ok x) :
    x.isFinite = true ∨ Answered entries problem (.ok "Inf. Solutions") ∨
      Answered entries problem (.ok "No Solution") := by
  obtain ⟨hp, solution, hsolve, rfl⟩ | ⟨-, hvalue⟩ := cases_of_worked h
  · have hruling := (Linear.solve_iff_ruling problem _).mp rfl
    rw [hsolve, Linear.worth] at hruling
    generalize solution.value = v at hruling
    cases hruling with
    | identity hw hm hd ha hb => exact .inr (.inl (.identity hw hm hd ha hb))
    | contradiction hw hm hd ha hb => exact .inr (.inr (.contradiction hw hm hd ha hb))
    | solved _ _ _ _ hq => exact .inl hq
  · obtain ⟨y, hy, hf⟩ | ⟨c, hc, -⟩ := (Expression.evaluate_finite_or_fault problem).1
    · obtain rfl : x = y := Except.ok.inj (hvalue.symm.trans hy)
      exact .inl hf
    · cases hvalue.symm.trans hc

lemma exists_answered (entries : List (List CodePoint × Value)) (problem : String) :
    ∃ outcome, Answered entries problem outcome := by
  cases hworked : worked problem with
  | error f => exact ⟨_, .refused hworked⟩
  | ok x =>
    obtain hx | hinf | hnan := isFinite_of_worked entries hworked
    · cases hplaces : Settings.wholeNumber (Settings.storedPlaces entries) with
      | error fault => exact ⟨_, .unusable hworked hx hplaces⟩
      | ok n =>
        have hlaid := Settings.decimalPlaces_laidOver entries
        rw [hplaces] at hlaid
        obtain ⟨a, ha⟩ := (Number.isFinite_iff x).mp hx
        exact ⟨_, .shown hworked hx hplaces (render_eq hlaid ha)⟩
    · exact ⟨_, hinf⟩
    · exact ⟨_, hnan⟩

/-- With an object in the settings file a problem has the outcome that is settled for it and no other. -/
theorem calculate_eq_iff_answered {File : Type} [DecidableEq File] {store : Store File} {system : System File}
    {file : File} {text : String} (hfind : store.find system .reading = .ok file)
    (hfile : store.files.lookup file = some text) (hread : Json.read system.depth text = .ok (.object entries))
    (problem : String) (outcome : Except Abort String) :
    Console.calculate (store.load system) problem = outcome ↔ Answered entries problem outcome := by
  have hload : store.load system = .ok ((Settings.ofEntries entries).laidOver .defaults) := by
    rw [Store.load_of_text hfind hfile, Store.settingsOf, hread]
    exact Settings.overlay_defaults (Json.nodup_of_read hread)
  rw [hload, Console.calculate_eq]
  refine ⟨?_, calculate_of_answered⟩
  rintro rfl
  obtain ⟨outcome, h⟩ := exists_answered entries problem
  rwa [calculate_of_answered h]

/-- With fractions on and a lone surrogate for the places, a whole result is a failure that shows the surrogate. -/
theorem calculate_eq_iff_answered_text :
    let text := "\x7b\n    \"decimal_places\": \"\\ud800\",\n    \"fractions\": true\n\x7d"
    let store : Store String := ⟨.ofText "config.json", [("config.json", text)]⟩
    Console.calculate (store.load .oneDirectory) "1+1" =
      .error (.failure ⟨.unexpected "invalid literal for int() with base 10: '\\ud800'", some "1+1"⟩) := by
  intro text store
  let entries : List (List CodePoint × Value) :=
    [("decimal_places", .scalar (.text [.surrogate 0])), ("fractions", .scalar (.bool true))]
  have hfind : store.find .oneDirectory .reading = .ok "config.json" := by decide +kernel
  have hfits : (Value.object entries).Fits Scalar.IsReadable System.oneDirectory.depth := by
    have hlone : Unpaired [.surrogate 0] := by decide
    refine .object ?_ (by decide) ?_
    · simp only [entries, List.forall_mem_cons]
      exact ⟨by decide, by decide, by simp⟩
    · simp only [entries, List.forall_mem_cons]
      exact ⟨.scalar ⟨hlone, rfl⟩, .scalar ⟨trivial, rfl⟩, by simp⟩
  have hread : Json.read System.oneDirectory.depth text = .ok (.object entries) := by
    have htext : text = String.ofList (Json.Piece.textOf (Json.pieces 0 (.object entries))) := by decide +kernel
    rw [htext]
    exact Json.read_write hfits
  have hsum : worked "1+1" = .ok 2 := Outcome.toOption_eq_some.mp (by decide +kernel)
  have hplaces : Settings.wholeNumber (Settings.storedPlaces entries) = .error (.textNotWhole [.surrogate 0]) := by
    rw [Settings.storedPlaces, List.lookup_cons_self]
    rfl
  have hmessage : String.ofList (Text.trim (SettingsFault.textNotWhole [.surrogate 0]).message.toList) =
      "invalid literal for int() with base 10: '\\ud800'" := by decide +kernel
  rw [calculate_eq_iff_answered hfind List.lookup_cons_self hread, ← hmessage]
  exact .unusable hsum (by decide +kernel) hplaces

end Display

end Reckoner
