import Mathlib
import Reckoner.Proofs.Display.Fraction

/-!
# The flag of a rounded result

A result is shown together with a flag for its sign. The flag tells the truth in all three ways to show a result
(`render_rounded_iff`): it is down just when the double nearest to the number that the text stands for is the result.
-/

namespace Reckoner

namespace Display

open Number (toRat? round?)

variable {n : ℕ} {a : ℚ} {x y : Float} {settings : Settings}

lemma bne_eq_false_iff (ha : toRat? x = some a) : (y != x) = false ↔ toRat? y = some a := by
  rw [bne, Bool.not_eq_false', Number.beq_iff ha]

lemma asFraction_rounded (ha : toRat? x = some a) :
    ∃ r, Denotes (asFraction x).text.toList r ∧ ((asFraction x).rounded = false ↔ round? r = some a) := by
  refine ⟨_, denotes_fractionText _, ?_⟩
  rw [← Number.toRat?_nearest]
  exact bne_eq_false_iff ha

lemma asDecimal_rounded (n : ℕ) (ha : toRat? x = some a) :
    ∃ r, Denotes (asDecimal n x).text.toList r ∧ ((asDecimal n x).rounded = false ↔ round? r = some a) := by
  have hvalue := Number.toRat?_roundToPlaces n ha
  obtain ⟨r, hr, hround⟩ := exists_denotes_display hvalue
  refine ⟨r, hr, ?_⟩
  rw [hround, ← hvalue]
  exact bne_eq_false_iff ha

/-- Usable settings show every finite double as a text that stands for one number, and the flag is down just when the
double nearest to this number is the one that is shown. -/
theorem render_rounded_iff (hplaces : settings.decimalPlaces = .ok n) (ha : toRat? x = some a) :
    ∃ shown r, render settings x = .ok shown ∧ (∀ r', Denotes shown.text.toList r' ↔ r' = r) ∧
      (shown.rounded = false ↔ round? r = some a) := by
  suffices h : ∃ shown r, render settings x = .ok shown ∧ Denotes shown.text.toList r ∧
      (shown.rounded = false ↔ round? r = some a) by
    obtain ⟨shown, r, hshown, hr, hflag⟩ := h
    exact ⟨shown, r, hshown, fun r' => hr.iff, hflag⟩
  rw [render_eq hplaces ha]
  split
  · obtain ⟨r, hr, hround⟩ := exists_denotes_display ha
    exact ⟨_, r, rfl, hr, iff_of_true rfl hround⟩
  · split
    · obtain ⟨r, hr, hflag⟩ := asFraction_rounded ha
      exact ⟨_, r, rfl, hr, hflag⟩
    · obtain ⟨r, hr, hflag⟩ := asDecimal_rounded n ha
      exact ⟨_, r, rfl, hr, hflag⟩

/-- A quarter below zero, rounded to ten places as the default settings ask for. -/
theorem render_rounded_iff_quarter :
    ∃ shown r, render Settings.defaults (-0.25) = .ok shown ∧ (∀ r', Denotes shown.text.toList r' ↔ r' = r) ∧
      (shown.rounded = false ↔ round? r = some (-1 / 4)) :=
  render_rounded_iff (n := 10) (by decide +kernel) (by decide +kernel)

end Display

end Reckoner
