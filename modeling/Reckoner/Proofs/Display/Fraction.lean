import Mathlib
import Reckoner.Proofs.Display.Denoted
import Reckoner.Proofs.Number.Convergent

/-!
# Results as fractions

A rational number within the bound on denominators is written in lowest terms: as a whole number, as a proper fraction,
or as a positive whole number with a proper fraction behind it, and with a minus sign before all of it if it is negative
(`exists_lowest`). A result that is shown as a fraction is written in this form, and no fraction within the bound is
closer to the result than the number that is shown (`render_fraction`).
-/

namespace Reckoner

namespace Display

open Number (toRat? closestFraction)
open Text (digitsOfNat)

/-- A proper fraction in lowest terms whose denominator is within a bound. -/
structure Reduced (bound p q : ℕ) : Prop where
  pos : 0 < p
  lt : p < q
  le : q ≤ bound
  coprime : p.Coprime q

/-- Numbers without a sign in lowest terms, with denominators within a bound. -/
inductive Lowest (bound : ℕ) : List Char → ℚ → Prop
  | whole {n : ℕ} :
    Lowest bound (digitsOfNat n) n
  | proper {p q : ℕ} :
    Reduced bound p q →
    Lowest bound (digitsOfNat p ++ '/' :: digitsOfNat q) (p / q)
  | mixed {n p q : ℕ} :
    0 < n → Reduced bound p q →
    Lowest bound (digitsOfNat n ++ ' ' :: (digitsOfNat p ++ '/' :: digitsOfNat q)) (n + p / q)

variable {bound n : ℕ} {s : List Char} {r a : ℚ} {x : Float} {settings : Settings}

lemma Lowest.size (h : Lowest bound s r) : Size s r := by
  cases h with
  | whole => exact .decimal (decimals_digitsOfNat _)
  | proper h => exact .ratio (.mk (digits_digitsOfNat _) (digits_digitsOfNat _) (h.pos.trans h.lt))
  | mixed _ h =>
    exact .mixed (digits_digitsOfNat _) (.mk (digits_digitsOfNat _) (digits_digitsOfNat _) (h.pos.trans h.lt))

@[simp] lemma toList_ofInt (n : ℕ) : (Number.ofInt n).toList = digitsOfNat n := by
  rw [Number.ofInt, String.toList_ofList, if_neg (by omega), List.nil_append, Int.natAbs_natCast]

/-- The rest of a division by the denominator is in lowest terms. -/
lemma reduced_rest (hr : r.den ≤ bound) (hw : r.den ≠ 1) : Reduced bound (r.num.natAbs % r.den) r.den := by
  have hcoprime : (r.num.natAbs % r.den).Coprime r.den := by
    rw [Nat.Coprime, ← Nat.gcd_rec, Nat.gcd_comm]
    exact r.reduced
  refine ⟨Nat.pos_of_ne_zero fun hz => hw ?_, Nat.mod_lt _ r.den_pos, hr, hcoprime⟩
  rwa [hz, Nat.coprime_zero_left] at hcoprime

/-- The size of a number is its whole part and the rest over the denominator. -/
lemma abs_eq_whole_add (r : ℚ) :
    |r| = ((r.num.natAbs / r.den : ℕ) : ℚ) + ((r.num.natAbs % r.den : ℕ) : ℚ) / r.den := by
  have hden : (r.den : ℚ) ≠ 0 := by exact_mod_cast r.den_pos.ne'
  have hsplit : ((r.den * (r.num.natAbs / r.den) + r.num.natAbs % r.den : ℕ) : ℚ) = r.num.natAbs := by
    rw [Nat.div_add_mod]
  conv_lhs => rw [← Rat.num_div_den r, abs_div, Nat.abs_cast, ← Int.cast_abs, ← Nat.cast_natAbs, ← hsplit]
  push_cast
  field_simp

/-- The text of a fraction is in lowest terms, behind a minus sign if the fraction is negative. -/
theorem exists_lowest (hr : r.den ≤ bound) :
    ∃ s, (fractionText r).toList = (if r < 0 then ['-'] else []) ++ s ∧ Lowest bound s |r| := by
  have hsign : (if r < 0 then "-" else "").toList = if r < 0 then ['-'] else [] := by
    split <;> rfl
  have habs := abs_eq_whole_add r
  rw [fractionText]
  split
  · next hden =>
    rw [hden, Nat.mod_one, Nat.cast_zero, zero_div, add_zero] at habs
    rw [habs]
    refine ⟨_, ?_, .whole⟩
    rw [String.toList_append, hsign, hden, toList_ofInt]
  · next hden =>
    have hrest := reduced_rest hr hden
    split
    · next hzero =>
      rw [hzero, Nat.cast_zero, zero_add] at habs
      rw [habs]
      refine ⟨_, ?_, .proper hrest⟩
      simp only [String.toList_append, hsign, toList_ofInt, List.append_assoc]
      rfl
    · next hpos =>
      rw [habs]
      refine ⟨_, ?_, .mixed (Nat.pos_of_ne_zero hpos) hrest⟩
      simp only [String.toList_append, hsign, toList_ofInt, List.append_assoc]
      rfl

/-- A fraction is shown as a text that stands for it. -/
lemma denotes_fractionText (r : ℚ) : Denotes (fractionText r).toList r := by
  obtain ⟨s, htext, hs⟩ := exists_lowest (r := r) le_rfl
  have h := hs.size.denotes (r < 0)
  rwa [Number.signed_abs, ← htext] at h

/-- A result that is not whole is shown as a fraction in lowest terms with a denominator of at most 100000, behind a
minus sign if it is negative, and no fraction with such a denominator is closer to the result. -/
theorem render_fraction (hplaces : settings.decimalPlaces = .ok n) (hfractions : settings.showsFractions = true)
    (ha : toRat? x = some a) (hw : a.den ≠ 1) :
    ∃ shown s r, render settings x = .ok shown ∧
      shown.text.toList = (if r < 0 then ['-'] else []) ++ s ∧ Lowest 100000 s |r| ∧
      (∀ r', Denotes shown.text.toList r' ↔ r' = r) ∧
      ∀ (p : ℤ) (q : ℕ), 0 < q → q ≤ 100000 → |r - a| ≤ |(p : ℚ) / q - a| := by
  have hvalue : Number.toRat x = a := by rw [Number.toRat, ha, Option.getD_some]
  obtain ⟨hden, hbest⟩ := Number.closestFraction_best (show 0 < maxDenominator by decide) a
  obtain ⟨s, htext, hs⟩ := exists_lowest hden
  have hshown := render_eq hplaces ha
  rw [if_neg hw, hfractions, if_pos rfl, asFraction, hvalue] at hshown
  refine ⟨_, s, _, hshown, htext, hs, fun r' => (denotes_fractionText _).iff, fun p q hq hle => hbest _ ?_⟩
  have hdvd : ((p / q : ℚ).den : ℤ) ∣ q := by exact_mod_cast Rat.den_dvd p q
  exact (Nat.le_of_dvd hq (by exact_mod_cast hdvd)).trans hle

/-- The settings of a calculator that shows fractions. -/
def withFractions : Settings :=
  Settings.defaults.insert (.text "fractions") (.scalar (.bool true))

/-- The double next to minus π has a denominator of 48 binary digits. -/
theorem render_fraction_pi :
    ∃ shown s r, render withFractions (-3.141592653589793) = .ok shown ∧
      shown.text.toList = (if r < 0 then ['-'] else []) ++ s ∧ Lowest 100000 s |r| ∧
      (∀ r', Denotes shown.text.toList r' ↔ r' = r) ∧
      ∀ (p : ℤ) (q : ℕ), 0 < q → q ≤ 100000 →
        |r - -884279719003555 / 281474976710656| ≤ |(p : ℚ) / q - -884279719003555 / 281474976710656| := by
  have hpi : toRat? (-3.141592653589793) = some (-884279719003555 / 281474976710656) := by decide +kernel
  exact render_fraction (n := 10) (by decide +kernel) (by decide +kernel) hpi (by decide +kernel)

end Display

end Reckoner
