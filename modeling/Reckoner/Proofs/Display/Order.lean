import Mathlib
import Reckoner.Proofs.Display.Fraction

/-!
# The order of displayed results

With the same settings a lesser result is never shown as a greater number (`render_mono`). Each way to show a result
keeps the order: the shortest digits, since they are rounded to the double again; the decimal places; and the closest
fraction, since of two numbers the lesser is not nearer to the greater candidate. Between a fraction and a result too
long for one there is a whole double.
-/

namespace Reckoner

namespace Number

variable {bound n : ℕ} {a b p q r : ℚ}

/-- Of two numbers, each with the nearer of two candidates, the lesser has the lesser candidate. -/
lemma le_of_nearest (h : a < b) (hp : |p - a| ≤ |q - a|) (hq : |q - b| ≤ |p - b|) : p ≤ q := by
  by_contra hlt
  have hgap : 0 < p - q := sub_pos.mpr (not_le.mp hlt)
  have hlow : (p - q) * (p + q - 2 * a) ≤ 0 := by linarith [sq_le_sq.mpr hp]
  have hhigh : (p - q) * (2 * b - (p + q)) ≤ 0 := by linarith [sq_le_sq.mpr hq]
  have hlow := nonpos_of_mul_nonpos_right hlow hgap
  have hhigh := nonpos_of_mul_nonpos_right hhigh hgap
  linarith

lemma closestFraction_of_le (h : r.den ≤ bound) : closestFraction bound r = r := by
  rw [closestFraction, if_pos h]

/-- The closest fractions are in the order of the numbers. -/
theorem closestFraction_mono (hbound : 0 < bound) (h : a ≤ b) : closestFraction bound a ≤ closestFraction bound b := by
  obtain rfl | hlt := h.eq_or_lt
  · exact le_rfl
  · obtain ⟨hpa, hbesta⟩ := closestFraction_best hbound a
    obtain ⟨hpb, hbestb⟩ := closestFraction_best hbound b
    exact le_of_nearest hlt (hbesta _ hpb) (hbestb _ hpa)

lemma toPlaces_mono (n : ℕ) (h : a ≤ b) : toPlaces n a ≤ toPlaces n b := by
  have hscaled : a * 10 ^ n ≤ b * 10 ^ n := mul_le_mul_of_nonneg_right h (by positivity)
  have hunits : (roundHalfEven (a * 10 ^ n) : ℚ) ≤ roundHalfEven (b * 10 ^ n) := by
    exact_mod_cast roundHalfEven_mono hscaled
  exact div_le_div_of_nonneg_right hunits (by positivity)

/-- What is rounded to a double above another double is not below this. -/
lemma le_of_round? (hq : IsDouble q) (hr : round? r = some a) (h : q < a) : q ≤ r := by
  by_contra hlt
  have hle := rounded_le hq (not_le.mp hlt).le
  rw [← (round?_eq_some hr).1] at hle
  exact h.not_ge hle

/-- What is rounded to a double below another double is not above this. -/
lemma round?_le (hq : IsDouble q) (hr : round? r = some a) (h : a < q) : r ≤ q := by
  by_contra hlt
  have hle := le_rounded hq (not_le.mp hlt).le
  rw [← (round?_eq_some hr).1] at hle
  exact h.not_ge hle

/-- A double that is not too long lies between whole doubles that are not. -/
lemma exists_whole_bounds (h : IsDouble a) (hlt : |a| < 10 ^ 21) :
    ∃ low high, (IsDouble low ∧ low.den = 1 ∧ -10 ^ 21 < low ∧ low ≤ a) ∧
      (IsDouble high ∧ high.den = 1 ∧ high < 10 ^ 21 ∧ a ≤ high) := by
  by_cases hw : a.den = 1
  · obtain ⟨hlow, hhigh⟩ := abs_lt.mp hlt
    exact ⟨a, a, ⟨h, hw, hlow, le_rfl⟩, h, hw, hhigh, le_rfl⟩
  · obtain ⟨hlow, hhigh⟩ := abs_lt.mp (abs_lt_of_not_whole h hw)
    have hden : (2 ^ 53 : ℚ).den = 1 := by exact_mod_cast Rat.den_natCast (2 ^ 53)
    refine ⟨-2 ^ 53, 2 ^ 53, ⟨⟨-1, 53, by norm_num, by norm_num, by norm_num, by norm_num⟩, ?_, by norm_num, hlow.le⟩,
      isDouble_two_pow (by norm_num), hden, by norm_num, hhigh.le⟩
    rw [Rat.den_neg_eq_den, hden]

end Number

namespace Display

open Number (toRat? round? rounded toPlaces display closestFraction)

variable {n : ℕ} {a b p q r : ℚ} {x y : Float} {settings : Settings}

/-- What a display stands for is rounded to the double. -/
lemma round?_of_denotes (ha : toRat? x = some a) (hr : Denotes (display x).toList r) : round? r = some a := by
  obtain ⟨r', hr', hround⟩ := exists_denotes_display ha
  rwa [hr.unique hr']

/-- Displays are in the order of the doubles. -/
theorem display_mono (ha : toRat? x = some a) (hb : toRat? y = some b) (h : a ≤ b)
    (hr : Denotes (display x).toList r) (hq : Denotes (display y).toList q) : r ≤ q := by
  obtain rfl | hlt := h.eq_or_lt
  · rw [Number.display_congr ha hb] at hr
    exact (hr.unique hq).le
  · by_contra hgt
    have hmono := Number.rounded_mono (not_le.mp hgt).le
    rw [← (Number.round?_eq_some (round?_of_denotes ha hr)).1,
      ← (Number.round?_eq_some (round?_of_denotes hb hq)).1] at hmono
    exact hlt.not_ge hmono

/-- A whole number that is not too long is displayed exactly. -/
lemma denotes_display_of_whole (ha : toRat? x = some a) (hw : a.den = 1) (hlt : |a| < 10 ^ 21) :
    Denotes (display x).toList a := by
  obtain ⟨-, -, htext⟩ | ⟨-, hlong, -⟩ := Number.toList_display ha
  · have h := (Size.decimal (decimals_digitsOfNat a.num.natAbs)).denotes (a < 0)
    rwa [Number.natAbs_num_of_whole hw, Number.signed_abs, ← htext] at h
  · exact absurd hlt (hlong hw).not_gt

/-- With decimals the display of the rounded result is shown, of a whole result as well. -/
lemma exists_display_shown (hplaces : settings.decimalPlaces = .ok n) (hdecimals : settings.showsFractions = false)
    (ha : toRat? x = some a) :
    ∃ shown y, render settings x = .ok shown ∧ shown.text = display y ∧ toRat? y = some (rounded (toPlaces n a)) := by
  rw [render_eq hplaces ha, hdecimals]
  split
  · next hw =>
    refine ⟨_, x, rfl, rfl, ?_⟩
    rw [Number.toPlaces_of_whole n hw, Number.rounded_of_isDouble (Number.isDouble_of_toRat? ha), ha]
  · exact ⟨_, _, rfl, rfl, Number.toRat?_roundToPlaces n ha⟩

/-- What is shown with fractions: the closest one, unless the result is too long. -/
inductive Fractional (x : Float) (a : ℚ) : ℚ → Prop
  | closest :
    |a| < 10 ^ 21 →
    Fractional x a (closestFraction maxDenominator a)
  | long {r : ℚ} :
    10 ^ 21 ≤ |a| → Denotes (display x).toList r →
    Fractional x a r

lemma exists_fractional (hplaces : settings.decimalPlaces = .ok n) (hfractions : settings.showsFractions = true)
    (ha : toRat? x = some a) :
    ∃ shown r, render settings x = .ok shown ∧ Denotes shown.text.toList r ∧ Fractional x a r := by
  rw [render_eq hplaces ha, hfractions]
  split
  · next hw =>
    obtain hlong | hshort := le_or_gt (10 ^ 21) |a|
    · obtain ⟨r, hr, -⟩ := exists_denotes_display ha
      exact ⟨_, r, rfl, hr, .long hlong hr⟩
    · have hexact : closestFraction maxDenominator a = a := Number.closestFraction_of_le (by rw [hw]; decide)
      refine ⟨_, _, rfl, ?_, .closest hshort⟩
      rw [hexact]
      exact denotes_display_of_whole ha hw hshort
  · next hw =>
    have hlt := Number.abs_lt_of_not_whole (Number.isDouble_of_toRat? ha) hw
    have hvalue : Number.toRat x = a := by rw [Number.toRat, ha, Option.getD_some]
    refine ⟨_, _, rfl, ?_, .closest (hlt.trans (by norm_num))⟩
    rw [asFraction, hvalue]
    exact denotes_fractionText _

/-- Fractions and the displays of long results are in the order of the doubles. -/
lemma Fractional.mono (hr : Fractional x a r) (hq : Fractional y b q) (ha : toRat? x = some a)
    (hb : toRat? y = some b) (h : a ≤ b) : r ≤ q := by
  have hbound : 0 < maxDenominator := by decide
  have whole {m : ℚ} (hm : m.den = 1) : closestFraction maxDenominator m = m :=
    Number.closestFraction_of_le (by rw [hm]; decide)
  cases hr with
  | closest hshort =>
    cases hq with
    | closest _ => exact Number.closestFraction_mono hbound h
    | long hlong hq =>
      obtain ⟨-, m, -, hm, hw, hlt, hle⟩ := Number.exists_whole_bounds (Number.isDouble_of_toRat? ha) hshort
      have hlow := (abs_lt.mp hshort).1
      have hge : 10 ^ 21 ≤ b := (le_abs.mp hlong).resolve_right fun hneg => by linarith
      calc closestFraction maxDenominator a ≤ closestFraction maxDenominator m :=
            Number.closestFraction_mono hbound hle
        _ = m := whole hw
        _ ≤ q := Number.le_of_round? hm (round?_of_denotes hb hq) (hlt.trans_le hge)
  | long hlong hr =>
    cases hq with
    | closest hshort =>
      obtain ⟨m, -, ⟨hm, hw, hlt, hle⟩, -⟩ := Number.exists_whole_bounds (Number.isDouble_of_toRat? hb) hshort
      have hhigh := (abs_lt.mp hshort).2
      have hge : 10 ^ 21 ≤ -a := (le_abs.mp hlong).resolve_left fun hpos => by linarith
      calc r ≤ m := Number.round?_le hm (round?_of_denotes ha hr) (by linarith)
        _ = closestFraction maxDenominator m := (whole hw).symm
        _ ≤ closestFraction maxDenominator b := Number.closestFraction_mono hbound hle
    | long _ hq => exact display_mono ha hb h hr hq

/-- Usable settings show two finite doubles as numbers in the same order. -/
theorem render_mono (hplaces : settings.decimalPlaces = .ok n) (ha : toRat? x = some a) (hb : toRat? y = some b)
    (h : x ≤ y) :
    ∃ s t r q, render settings x = .ok s ∧ render settings y = .ok t ∧ (∀ r', Denotes s.text.toList r' ↔ r' = r) ∧
      (∀ q', Denotes t.text.toList q' ↔ q' = q) ∧ r ≤ q := by
  rw [Number.le_iff ha hb] at h
  cases hfractions : settings.showsFractions with
  | false =>
    obtain ⟨s, x', hs, hstext, hx'⟩ := exists_display_shown hplaces hfractions ha
    obtain ⟨t, y', ht, httext, hy'⟩ := exists_display_shown hplaces hfractions hb
    obtain ⟨r, hr, -⟩ := exists_denotes_display hx'
    obtain ⟨q, hq, -⟩ := exists_denotes_display hy'
    have hle := Number.rounded_mono (Number.toPlaces_mono n h)
    refine ⟨s, t, r, q, hs, ht, ?_, ?_, display_mono hx' hy' hle hr hq⟩
    · rw [hstext]
      exact fun r' => hr.iff
    · rw [httext]
      exact fun q' => hq.iff
  | true =>
    obtain ⟨s, r, hs, hr, hrx⟩ := exists_fractional hplaces hfractions ha
    obtain ⟨t, q, ht, hq, hqy⟩ := exists_fractional hplaces hfractions hb
    exact ⟨s, t, r, q, hs, ht, fun r' => hr.iff, fun q' => hq.iff, hrx.mono hqy ha hb h⟩

/-- A fraction and a whole double with an exponent, both below zero. -/
theorem render_mono_fractions :
    ∃ s t r q, render withFractions (-1e22) = .ok s ∧ render withFractions (-0.75) = .ok t ∧
      (∀ r', Denotes s.text.toList r' ↔ r' = r) ∧ (∀ q', Denotes t.text.toList q' ↔ q' = q) ∧ r ≤ q := by
  have hlong : toRat? (-1e22) = some (-10000000000000000000000) := by decide +kernel
  have hshort : toRat? (-0.75) = some (-3 / 4) := by decide +kernel
  exact render_mono (n := 10) (by decide +kernel) hlong hshort (by decide +kernel)

end Display

end Reckoner
