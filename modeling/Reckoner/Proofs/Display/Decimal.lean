import Mathlib
import Reckoner.Proofs.Display.Denoted

/-!
# Results as decimals

A result that is shown as a decimal has no more places than the settings ask for, is typed in as the double nearest to
the result rounded to these places, and is shown in the same way again (`render_decimal`). There are two roundings, to
places and to a double, and then the shortest digits. The shortest digits have no more places than the decimal that was
rounded to the double, and the double is rounded to this decimal again.
-/

namespace Reckoner

namespace Display

open Number (toRat? round? rounded toPlaces typed? display roundToPlaces)

variable {n : ℕ} {a v : ℚ} {x y : Float} {settings : Settings}

/-- A result with places after the point is not long. -/
lemma abs_rounded_toPlaces_lt (n : ℕ) (ha : toRat? x = some a) (hw : a.den ≠ 1) :
    |rounded (toPlaces n a)| < 10 ^ 21 := by
  have hlt := Number.abs_lt_of_not_whole (Number.isDouble_of_toRat? ha) hw
  have hdist := (abs_le.mp (Number.abs_toPlaces_sub_le n |a|)).2
  have hten : (1 : ℚ) / 2 / 10 ^ n ≤ 1 / 2 := div_le_self (by norm_num) (one_le_pow₀ (by norm_num))
  have hle : toPlaces n |a| ≤ 2 ^ 54 := by linarith
  have hmono := Number.rounded_mono hle
  rw [Number.rounded_of_isDouble (Number.isDouble_two_pow (by norm_num))] at hmono
  rw [Number.abs_rounded, Number.abs_toPlaces]
  linarith

/-- Showing the displayed double again changes nothing. -/
lemma render_again (hplaces : settings.decimalPlaces = .ok n) (hdecimals : settings.showsFractions = false)
    (ha : toRat? x = some a) (hy : toRat? y = some (rounded (toPlaces n a))) :
    render settings y = .ok ⟨display (roundToPlaces x n), false⟩ := by
  have hsame := Number.display_congr hy (Number.toRat?_roundToPlaces n ha)
  have hagain := Number.toRat?_roundToPlaces n hy
  rw [Number.toPlaces_rounded n (Number.isDouble_of_toRat? ha)] at hagain
  rw [render_eq hplaces hy, hdecimals]
  split
  · rw [hsame]
  · rw [if_neg Bool.false_ne_true, asDecimal, Number.display_congr hagain hy, hsame, bne,
      Number.beq_of_toRat? hagain hy]
    rfl

/-- A result that is not whole is shown as a decimal with no more places than asked for. It is typed in as the double
nearest to the result rounded to these places, and this double is shown as the same text, with nothing rounded. -/
theorem render_decimal (hplaces : settings.decimalPlaces = .ok n) (hdecimals : settings.showsFractions = false)
    (ha : toRat? x = some a) (hw : a.den ≠ 1) :
    ∃ shown s r k v y, render settings x = .ok shown ∧
      shown.text.toList = (if v < 0 then ['-'] else []) ++ s ∧ Decimals s r k ∧ k ≤ n ∧
      round? (toPlaces n a) = some v ∧ round? r = some |v| ∧
      typed? shown.text.toList = some y ∧ toRat? y = some v ∧ render settings y = .ok ⟨shown.text, false⟩ := by
  have hdouble := Number.isDouble_of_toRat? ha
  have hsize := Number.isDouble_of_toRat? (Number.toRat?_abs ha)
  have hvalue := Number.toRat?_roundToPlaces n ha
  have hshown := render_eq hplaces ha
  rw [if_neg hw, hdecimals, if_neg Bool.false_ne_true, asDecimal] at hshown
  obtain ⟨s, r, k, htext, hs, hr, hfew⟩ := exists_decimals_display hvalue
  obtain ⟨y, htyped, hbeq⟩ := Number.exists_typed_display (Number.not_isNaN_of_toRat? hvalue).1
  have hy := Number.toRat?_of_beq hbeq hvalue
  have hk : k ≤ n := by
    refine hfew (abs_rounded_toPlaces_lt n ha hw) (Number.roundHalfEven (|a| * 10 ^ n)) n ?_
    rw [Number.abs_rounded, Number.abs_toPlaces]
    exact Number.round?_toPlaces n hsize
  exact ⟨_, s, r, k, _, y, hshown, htext, hs, hk, Number.round?_toPlaces n hdouble, hr, htyped, hy,
    render_again hplaces hdecimals ha hy⟩

/-- The double next to minus π, with the ten places that are the default. -/
theorem render_decimal_pi :
    ∃ shown s r k v y, render Settings.defaults (-3.141592653589793) = .ok shown ∧
      shown.text.toList = (if v < 0 then ['-'] else []) ++ s ∧ Decimals s r k ∧ k ≤ 10 ∧
      round? (toPlaces 10 (-884279719003555 / 281474976710656)) = some v ∧ round? r = some |v| ∧
      typed? shown.text.toList = some y ∧ toRat? y = some v ∧
      render Settings.defaults y = .ok ⟨shown.text, false⟩ := by
  have hpi : toRat? (-3.141592653589793) = some (-884279719003555 / 281474976710656) := by decide +kernel
  exact render_decimal (by decide +kernel) (by decide +kernel) hpi (by decide +kernel)

end Display

end Reckoner
