import Mathlib
import Reckoner.Number.Places
import Reckoner.Proofs.Number.Order
import Reckoner.Proofs.Number.Typed

/-!
# Rounding to places

`toPlaces` rounds a number to decimal places, a half going to the even digit. Rounding a double to places gives the
double nearest to the decimal that its number is rounded to (`exists_roundToPlaces`), also beyond the places at which
nothing changes any more. What has been rounded to places and then to a double is rounded to the same decimal again
(`toPlaces_rounded`): the double is no farther from the decimal than the number that was rounded.
-/

namespace Reckoner

namespace Number

/-- A number rounded to `n` decimal places, a half going to the even digit. -/
def toPlaces (n : ℕ) (r : ℚ) : ℚ :=
  roundHalfEven (r * 10 ^ n) / 10 ^ n

variable {n : ℕ} {a r s : ℚ} {x y : Float}

@[simp] lemma toPlaces_neg (n : ℕ) (r : ℚ) : toPlaces n (-r) = -toPlaces n r := by
  rw [toPlaces, toPlaces, neg_mul, roundHalfEven_neg, Int.cast_neg, neg_div]

lemma abs_toPlaces_sub_le (n : ℕ) (r : ℚ) : |toPlaces n r - r| ≤ 1 / 2 / 10 ^ n := by
  have hten : (0 : ℚ) < 10 ^ n := by positivity
  have hunits : toPlaces n r - r = -(r * 10 ^ n - roundHalfEven (r * 10 ^ n)) / 10 ^ n := by
    rw [toPlaces, neg_sub, sub_div, mul_div_cancel_right₀ _ hten.ne']
  rw [hunits, abs_div, abs_neg, abs_of_pos hten]
  exact div_le_div_of_nonneg_right (abs_sub_roundHalfEven _) hten.le

lemma toPlaces_nonneg (ha : 0 ≤ a) : 0 ≤ toPlaces n a := by
  have hunits : 0 ≤ roundHalfEven (a * 10 ^ n) := le_roundHalfEven (by push_cast; positivity)
  exact div_nonneg (by exact_mod_cast hunits) (by positivity)

lemma abs_toPlaces (n : ℕ) (a : ℚ) : |toPlaces n a| = toPlaces n |a| := by
  obtain h | h := le_total 0 a
  · rw [abs_of_nonneg h, abs_of_nonneg (toPlaces_nonneg h)]
  · have hneg := toPlaces_nonneg (n := n) (neg_nonneg.mpr h)
    rw [abs_of_nonpos h, ← abs_of_nonneg hneg, toPlaces_neg, abs_neg]

/-- A whole number is its own rounding. -/
lemma toPlaces_of_whole (n : ℕ) (h : r.den = 1) : toPlaces n r = r := by
  have hten : (10 : ℚ) ^ n ≠ 0 := by positivity
  have hnum : r * 10 ^ n = ((r.num * 10 ^ n : ℤ) : ℚ) := by
    push_cast
    rw [(Rat.den_eq_one_iff r).mp h]
  rw [toPlaces, hnum, roundHalfEven_intCast, ← hnum, mul_div_cancel_right₀ _ hten]

/-- Rounding to a double keeps whole numbers whole. -/
lemma den_rounded_of_whole (h : r.den = 1) : (rounded r).den = 1 := by
  have hnum := (Rat.den_eq_one_iff r).mp h
  obtain hlow | hhigh := le_total (place r) 0
  · obtain ⟨j, hj⟩ := exists_multiple (n := r.num) hlow
    rw [zpow_zero, mul_one, hnum] at hj
    rwa [rounded_of_multiple hj]
  · obtain ⟨k, hk⟩ := Int.eq_ofNat_of_zero_le hhigh
    rw [rounded, spacing, hk]
    exact_mod_cast Rat.den_intCast (roundHalfEven (r / 2 ^ (k : ℤ)) * 2 ^ k)

/-- A double with places after the point is below 2^53. -/
lemma abs_lt_of_not_whole (h : IsDouble r) (hw : r.den ≠ 1) : |r| < 2 ^ 53 := by
  obtain ⟨m, e, rfl, hm, -, -⟩ := h
  have hneg : e ≤ 0 := by
    by_contra hpos
    obtain ⟨k, rfl⟩ := Int.eq_ofNat_of_zero_le (not_le.mp hpos).le
    refine hw ?_
    rw [zpow_natCast]
    exact_mod_cast Rat.den_intCast (m * 2 ^ k)
  have hpow : (2 : ℚ) ^ e ≤ 1 := zpow_le_one_of_nonpos₀ (by norm_num) hneg
  have hm : |(m : ℚ)| < 2 ^ 53 := by exact_mod_cast hm
  rw [abs_mul, abs_of_pos (two_zpow_pos e)]
  exact (mul_le_of_le_one_right (abs_nonneg _) hpow).trans_lt hm

/-- What a double is rounded to has a nearest double. -/
lemma round?_toPlaces (n : ℕ) (h : IsDouble a) : round? (toPlaces n a) = some (rounded (toPlaces n a)) := by
  by_cases hw : a.den = 1
  · rw [toPlaces_of_whole n hw, rounded_of_isDouble h, round?_of_isDouble h]
  · have hlt := abs_lt_of_not_whole h hw
    have hdist := abs_toPlaces_sub_le n a
    have hten : (1 : ℚ) / 2 / 10 ^ n ≤ 1 / 2 := div_le_self (by norm_num) (one_le_pow₀ (by norm_num))
    have htri := abs_sub_abs_le_abs_sub (toPlaces n a) a
    refine round?_of_abs_le (le_trans ?_ (pow_le_pow_right₀ (by norm_num) (show 54 ≤ 1022 by norm_num)))
    linarith

/-- Rounded to places and then to a double, a double is rounded to the same decimal again. -/
theorem toPlaces_rounded (n : ℕ) (h : IsDouble a) : toPlaces n (rounded (toPlaces n a)) = toPlaces n a := by
  have hten : (0 : ℚ) < 10 ^ n := by positivity
  have hnear := abs_rounded_sub_le h (r := toPlaces n a)
  generalize rounded (toPlaces n a) = s at hnear
  have hscaled (t : ℚ) : |t - toPlaces n a| * 10 ^ n = |t * 10 ^ n - roundHalfEven (a * 10 ^ n)| := by
    rw [toPlaces, ← abs_of_pos hten, ← abs_mul, abs_of_pos hten, sub_mul, div_mul_cancel₀ _ hten.ne']
  have hunits := mul_le_mul_of_nonneg_right hnear hten.le
  rw [hscaled, hscaled] at hunits
  have heq : roundHalfEven (s * 10 ^ n) = roundHalfEven (a * 10 ^ n) := by
    rw [roundHalfEven_eq_iff]
    obtain hlt | ⟨hhalf, heven⟩ := roundHalfEven_cases (a * 10 ^ n)
    · exact .inl (hunits.trans_lt hlt)
    · obtain hlt | hsame := (hunits.trans_eq hhalf).lt_or_eq
      · exact .inl hlt
      · exact .inr ⟨hsame, heven⟩
  rw [toPlaces, heq, toPlaces]

/-- Doubles are multiples of the least of them. -/
lemma IsDouble.exists_multiple_lowest (h : IsDouble r) : ∃ m : ℤ, r = m * 2 ^ (-1074 : ℤ) := by
  obtain ⟨m, e, rfl, -, he, -⟩ := h
  obtain ⟨k, hk⟩ := Int.eq_ofNat_of_zero_le (show 0 ≤ e + 1074 by omega)
  refine ⟨m * 2 ^ k, ?_⟩
  obtain rfl : e = k + -1074 := by omega
  rw [zpow_add₀ (by norm_num), Int.cast_mul, Int.cast_pow, mul_assoc, zpow_natCast]
  rfl

/-- Two doubles that are closer than the least double are the same. -/
lemma eq_of_abs_sub_lt (hr : IsDouble r) (hs : IsDouble s) (h : |r - s| < 2 ^ (-1074 : ℤ)) : r = s := by
  obtain ⟨i, rfl⟩ := hr.exists_multiple_lowest
  obtain ⟨j, rfl⟩ := hs.exists_multiple_lowest
  have hunit := two_zpow_pos (-1074)
  rw [← sub_mul, abs_mul, abs_of_pos hunit, mul_lt_iff_lt_one_left hunit] at h
  have hint : |i - j| < 1 := by exact_mod_cast h
  rw [Int.abs_lt_one_iff, sub_eq_zero] at hint
  rw [hint]

/-- Beyond the places that doubles have nothing changes. -/
lemma rounded_toPlaces_of_lt (hn : maxPlaces < n) (h : IsDouble a) : rounded (toPlaces n a) = a := by
  have hdist := abs_toPlaces_sub_le n a
  have hnear := abs_rounded_sub_le h (r := toPlaces n a)
  have htri := abs_sub_le (rounded (toPlaces n a)) (toPlaces n a) a
  have hunit : (1 : ℚ) / 10 ^ n < 2 ^ (-1074 : ℤ) := by
    have hpow : 2 ^ 1074 < 10 ^ n :=
      lt_of_lt_of_le (by decide +kernel) (Nat.pow_le_pow_right (by norm_num) (show 324 ≤ n from hn))
    rw [zpow_neg, ← one_div]
    exact one_div_lt_one_div_of_lt (by positivity) (by exact_mod_cast hpow)
  rw [abs_sub_comm a] at hnear
  rw [div_div, ← one_div_mul_one_div] at hdist
  exact eq_of_abs_sub_lt (isDouble_of_round? (round?_toPlaces n h)) h (by linarith)

lemma signed_abs (a : ℚ) : (if a < 0 then -|a| else |a|) = a := by
  split
  · next h => rw [abs_of_neg h, neg_neg]
  · next h => rw [abs_of_nonneg (not_lt.mp h)]

/-- The number of a double with its sign. -/
lemma eq_signed (ha : toRat? x = some a) : (if isNegative x then -|a| else |a|) = a := by
  by_cases hz : a = 0
  · rw [hz, abs_zero, neg_zero, ite_self]
  · simp only [isNegative_iff ha hz, signed_abs]

/-- A double rounded to places is the double nearest to what its number is rounded to. -/
theorem toRat?_roundToPlaces (n : ℕ) (ha : toRat? x = some a) :
    toRat? (roundToPlaces x n) = some (rounded (toPlaces n a)) := by
  have hdouble := isDouble_of_toRat? ha
  rw [roundToPlaces]
  split
  · next hn => rw [rounded_toPlaces_of_lt hn hdouble, ha]
  · have habs := toRat?_abs ha
    have hunits : toRat x.abs = |a| := by rw [toRat, habs, Option.getD_some]
    have hnonneg : 0 ≤ roundHalfEven (|a| * 10 ^ n) := le_roundHalfEven (by push_cast; positivity)
    have hsize : toRat? (Float.ofScientific (roundHalfEven (|a| * 10 ^ n)).natAbs true n) =
        some (rounded (toPlaces n |a|)) := by
      rw [toRat?_ofScientific, if_pos rfl, Nat.cast_natAbs, abs_of_nonneg hnonneg]
      exact round?_toPlaces n (isDouble_of_toRat? habs)
    rw [hunits, zpow_natCast]
    conv_rhs => rw [← eq_signed ha]
    split
    · rw [toRat?_neg hsize, toPlaces_neg, rounded_neg]
    · exact hsize

/-- The quotient of whole numbers as a double. -/
lemma toRat?_nearestQuotient (p : ℕ) {q : ℕ} (hq : 0 < q) : toRat? (nearestQuotient p q) = round? (p / q) := by
  rcases Nat.eq_zero_or_pos p with rfl | hp
  · rw [nearestQuotient, dif_neg (lt_irrefl 0), toRat?_zero, Nat.cast_zero, zero_div, round?_zero]
  · have hdiv := @exactly?_div_finite .positive .positive p q 0 0 hp hq
    rw [signed, signed, zpow_zero, mul_one, mul_one] at hdiv
    rw [nearestQuotient, dif_pos hp, dif_pos hq, toRat?_eq]
    exact hdiv

/-- The sign changes nothing about being a number. -/
lemma toRat?_neg_of_none (hx : toRat? x = none) : toRat? (-x) = none := by
  rw [toRat?_eq] at hx ⊢
  change exactly? (Float.Model.pack (Float.Model.UnpackedFloat.neg x.toModel.unpack)).unpack = none
  apply exactly?_pack_none
  cases hu : x.toModel.unpack with
  | notANumber => rfl
  | infinity s => rfl
  | zero s =>
    rw [hu] at hx
    cases hx
  | finite s m e hm =>
    rw [hu] at hx
    cases hx

/-- The nearest double to a number, if there is one. -/
theorem toRat?_nearest (r : ℚ) : toRat? (nearest r) = round? r := by
  have hsize : toRat? (nearestQuotient r.num.natAbs r.den) = round? |r| := by
    rw [toRat?_nearestQuotient _ r.den_pos, Nat.cast_natAbs, Int.cast_abs, ← Nat.abs_cast r.den, ← abs_div,
      Rat.num_div_den]
  rw [nearest]
  split
  · next hneg =>
    rw [abs_of_neg hneg, round?_neg] at hsize
    cases hr : round? r with
    | none =>
      rw [hr] at hsize
      exact toRat?_neg_of_none hsize
    | some s =>
      rw [hr] at hsize
      rw [toRat?_neg hsize, neg_neg]
  · next hpos => rw [hsize, abs_of_nonneg (not_lt.mp hpos)]

/-- Which doubles equal a finite one. -/
lemma beq_iff (ha : toRat? x = some a) : (y == x) = true ↔ toRat? y = some a :=
  ⟨fun h => toRat?_of_beq h ha, fun h => beq_of_toRat? h ha⟩

end Number

end Reckoner
