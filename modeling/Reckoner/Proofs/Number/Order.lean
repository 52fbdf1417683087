import Mathlib
import Reckoner.Proofs.Number.Arithmetic

/-!
# The order of doubles

Rounding keeps the order of numbers (`rounded_mono`), and it goes beyond all finite doubles from half a place above
the largest of them (`abs_rounded_lt_iff`). What is rounded beyond them is the infinity on its side: `RoundsTo` says
so for quotients (`roundsTo_div`), which therefore keep the order of their numerators even where they are not finite
(`RoundsTo.le`).
-/

namespace Reckoner

namespace Number

section Rounding

variable {r s x y : ℚ}

/-- Two numbers between which rounding would change the order are both halfway between the same whole numbers. -/
lemma roundHalfEven_mono (h : x ≤ y) : roundHalfEven x ≤ roundHalfEven y := by
  by_contra hlt
  have hint : roundHalfEven y + 1 ≤ roundHalfEven x := by omega
  have hgap : (roundHalfEven y : ℚ) + 1 ≤ roundHalfEven x := by exact_mod_cast hint
  have hxle := abs_le.mp (abs_sub_roundHalfEven x)
  have hyle := abs_le.mp (abs_sub_roundHalfEven y)
  obtain hx | ⟨-, hxe⟩ := roundHalfEven_cases x
  · linarith [(abs_lt.mp hx).1]
  obtain hy | ⟨-, hye⟩ := roundHalfEven_cases y
  · linarith [(abs_lt.mp hy).2]
  have hone : |(roundHalfEven x : ℚ) - roundHalfEven y| ≤ 1 := by
    rw [abs_le]
    constructor <;> linarith
  have := eq_of_abs_le_one (by exact_mod_cast hone) hxe hye
  omega

lemma le_roundHalfEven {n : ℤ} (h : n ≤ x) : n ≤ roundHalfEven x :=
  (roundHalfEven_intCast n).symm.trans_le (roundHalfEven_mono h)

lemma rounded_nonneg (h : 0 ≤ r) : 0 ≤ rounded r := by
  have hdiv : ((0 : ℤ) : ℚ) ≤ r / spacing r := by
    rw [Int.cast_zero]
    exact div_nonneg h (spacing_pos r).le
  apply mul_nonneg _ (spacing_pos r).le
  exact_mod_cast le_roundHalfEven hdiv

lemma place_mono (hr : 0 < r) (h : r ≤ s) : place r ≤ place s := by
  have hlog := Int.log_mono_right (b := 2) hr h
  rw [place, place, abs_of_pos hr, abs_of_pos (hr.trans_le h)]
  omega

/-- In the same place the digits keep the order; in a higher one the leading digit alone is enough. -/
lemma rounded_mono_of_pos (hr : 0 < r) (h : r ≤ s) : rounded r ≤ rounded s := by
  obtain heq | hlt := (place_mono hr h).eq_or_lt
  · have hsp : spacing r = spacing s := by rw [spacing, spacing, heq]
    have hdigits := roundHalfEven_mono (div_le_div_of_nonneg_right h (spacing_pos s).le)
    rw [rounded, rounded, hsp]
    exact mul_le_mul_of_nonneg_right (by exact_mod_cast hdigits) (spacing_pos s).le
  · have hs : 0 < s := hr.trans_le h
    have hlog : place s = Int.log 2 |s| - 52 := by
      have hmin : -1074 ≤ place r := le_max_right _ _
      have hplace : place s = max (Int.log 2 |s| - 52) (-1074) := rfl
      omega
    have hlead : ((2 ^ 52 : ℤ) : ℚ) ≤ s / spacing s := by
      have := leading_le hs.ne' hlog
      rw [abs_of_pos hs] at this
      push_cast
      rwa [le_div_iff₀ (spacing_pos s)]
    have hhigh : (roundHalfEven (r / spacing r) : ℚ) ≤ 2 ^ 53 := by
      exact_mod_cast (le_abs_self _).trans (abs_digits_le r)
    have hlow : (2 : ℚ) ^ 52 ≤ roundHalfEven (s / spacing s) := by
      exact_mod_cast le_roundHalfEven hlead
    calc rounded r ≤ 2 ^ 53 * spacing r := mul_le_mul_of_nonneg_right hhigh (spacing_pos r).le
      _ = 2 ^ 52 * 2 ^ (place r + 1) := by
        rw [spacing, zpow_add_one₀ (by norm_num)]
        ring
      _ ≤ 2 ^ 52 * spacing s := by
        apply mul_le_mul_of_nonneg_left _ (by positivity)
        exact zpow_le_zpow_right₀ (by norm_num) hlt
      _ ≤ rounded s := mul_le_mul_of_nonneg_right hlow (spacing_pos s).le

/-- Rounding keeps the order. -/
theorem rounded_mono (h : r ≤ s) : rounded r ≤ rounded s := by
  obtain hr | rfl | hr := lt_trichotomy r 0
  · obtain hs | hs := lt_or_ge s 0
    · have := rounded_mono_of_pos (neg_pos.mpr hs) (neg_le_neg h)
      rwa [rounded_neg, rounded_neg, neg_le_neg_iff] at this
    · have := rounded_nonneg (neg_pos.mpr hr).le
      rw [rounded_neg] at this
      linarith [rounded_nonneg hs]
  · rw [rounded_zero]
    exact rounded_nonneg h
  · exact rounded_mono_of_pos hr h

/-- Rounding does not go beyond a double. -/
lemma rounded_le (hs : IsDouble s) (h : r ≤ s) : rounded r ≤ s :=
  (rounded_mono h).trans_eq (rounded_of_isDouble hs)

lemma le_rounded (hr : IsDouble r) (h : r ≤ s) : r ≤ rounded s :=
  (rounded_of_isDouble hr).symm.trans_le (rounded_mono h)

lemma abs_rounded (r : ℚ) : |rounded r| = rounded |r| := by
  obtain h | h := le_total 0 r
  · rw [abs_of_nonneg h, abs_of_nonneg (rounded_nonneg h)]
  · have := rounded_nonneg (neg_nonneg.mpr h)
    rw [abs_of_nonpos h, ← abs_of_nonneg this, rounded_neg, abs_neg]

/-- The powers of two around the largest finite double, in units of half its last place. -/
lemma two_pow_largest : (2 : ℚ) ^ 1024 = 2 ^ 54 * 2 ^ 970 ∧ (2 : ℚ) ^ 971 = 2 * 2 ^ 970 :=
  ⟨pow_add 2 54 970, pow_succ' 2 970⟩

/-- The largest finite double. -/
lemma isDouble_largest : IsDouble (2 ^ 1024 - 2 ^ 971) := by
  refine ⟨2 ^ 53 - 1, 971, ?_, by norm_num, by norm_num, le_rfl⟩
  rw [Int.cast_sub, Int.cast_pow, Int.cast_ofNat, Int.cast_one, sub_one_mul, two_pow_mul_zpow]
  rfl

/-- Half a place above the largest finite double the even neighbour is beyond it. -/
lemma rounded_half_above : rounded (2 ^ 1024 - 2 ^ 970) = 2 ^ 1024 := by
  obtain ⟨htop, hplace⟩ := two_pow_largest
  have hunit : (0 : ℚ) < 2 ^ 970 := by positivity
  have hvalue : (2 : ℚ) ^ 1024 - 2 ^ 970 = (2 ^ 54 - 1) * 2 ^ 970 := by
    rw [htop, sub_one_mul]
  have hpos : (0 : ℚ) < (2 ^ 54 - 1) * 2 ^ 970 := mul_pos (by norm_num) hunit
  have hlog : Int.log 2 (((2 : ℚ) ^ 54 - 1) * 2 ^ 970) = 1023 := by
    have hlow : (2 : ℚ) ^ (1023 : ℤ) = 2 ^ 53 * 2 ^ 970 := (zpow_natCast 2 1023).trans (pow_add 2 53 970)
    have hhigh : (2 : ℚ) ^ (1023 + 1 : ℤ) = 2 ^ 54 * 2 ^ 970 := (zpow_natCast 2 1024).trans htop
    rw [log_eq_iff hpos, hlow, hhigh]
    constructor
    · exact mul_le_mul_of_nonneg_right (by norm_num) hunit.le
    · exact mul_lt_mul_of_pos_right (by norm_num) hunit
  have hspacing : spacing ((2 ^ 54 - 1) * 2 ^ 970) = 2 * 2 ^ 970 := by
    rw [spacing, place, abs_of_pos hpos, hlog]
    exact hplace
  have hdigits : ((2 : ℚ) ^ 54 - 1) * 2 ^ 970 / (2 * 2 ^ 970) = 2 ^ 53 - 1 / 2 := by
    rw [mul_div_mul_right _ _ hunit.ne']
    norm_num
  have hround : roundHalfEven (2 ^ 53 - 1 / 2) = 2 ^ 53 := by
    rw [roundHalfEven_eq_iff]
    right
    constructor
    · norm_num
    · decide
  rw [hvalue, rounded, hspacing, hdigits, hround, htop, Int.cast_pow, Int.cast_ofNat, ← mul_assoc, ← pow_succ]

/-- The numbers that are rounded to finite doubles. -/
theorem abs_rounded_lt_iff : |rounded r| < 2 ^ 1024 ↔ |r| < 2 ^ 1024 - 2 ^ 970 := by
  have habove := rounded_half_above
  have hlargest := rounded_of_isDouble isDouble_largest
  have hnear := abs_rounded_sub_le isDouble_largest (r := |r|)
  have hunit : (0 : ℚ) < 2 ^ 970 := by positivity
  rw [two_pow_largest.2] at hlargest hnear
  have hmono (s : ℚ) := rounded_mono (r := |r|) (s := s)
  have hmono' (s : ℚ) := rounded_mono (r := s) (s := |r|)
  rw [abs_rounded]
  generalize (2 : ℚ) ^ 1024 = top at *
  generalize (2 : ℚ) ^ 970 = unit at *
  generalize |r| = r at *
  constructor
  · intro h
    by_contra hge
    have := hmono' _ (not_lt.mp hge)
    linarith
  · intro h
    by_contra hge
    obtain hle | hlt := le_or_gt r (top - 2 * unit)
    · -- Up to the largest double nothing is rounded beyond it.
      have := hmono _ hle
      linarith
    · -- Above it the largest double would be nearer.
      rw [abs_of_pos (by linarith), abs_of_neg (by linarith)] at hnear
      linarith

end Rounding

section Infinities

open Float.Model (UnpackedFloat)
open Float.Model.UnpackedFloat

variable {r s a b : ℚ} {x y : Float}

/-- The double that a number is rounded to, which is the infinity on its side if the number is too big. -/
inductive RoundsTo (r : ℚ) (x : Float) : Prop
  | finite :
    toRat? x = some (rounded r) →
    RoundsTo r x
  | infinite {sign} :
    x.toModel.unpack = .infinity sign →
    2 ^ 1024 ≤ signed sign (rounded r) →
    RoundsTo r x

/-- Digits that fit are packed to a finite double or to the infinity of their sign. -/
lemma cases_pack_finite (s : Sign) {m : ℕ} {e : ℤ} (hm : 0 < m) (h : Fits m e) :
    (∃ r, exactly? (Float.Model.pack (.finite s m e hm)).unpack = some r) ∨
      (Float.Model.pack (.finite s m e hm)).unpack = .infinity s := by
  by_cases he : e ≤ 971
  · have hc : Canonical (.finite s m e hm) := ⟨h, he⟩
    rw [unpack_pack hc]
    exact .inl ⟨_, exactly?_finite s e hm⟩
  · exact .inr (unpack_pack_of_lt hm (by omega))

lemma cases_settled (s : Sign) {v : ℚ} (hv : 0 < v) {n : ℕ} (hn : roundHalfEven (v / spacing v) = n) :
    (∃ r, exactly? (Float.Model.pack (settled s n (place v))).unpack = some r) ∨
      (Float.Model.pack (settled s n (place v))).unpack = .infinity s := by
  have hle : n ≤ 2 ^ 53 := by
    have := abs_digits_le v
    rw [hn, Nat.abs_cast] at this
    exact_mod_cast this
  have hmin : -1074 ≤ place v := le_max_right _ _
  rw [settled]
  split
  · have hc : Canonical (.zero s) := trivial
    rw [unpack_pack hc]
    exact .inl ⟨0, exactly?_zero s⟩
  · split
    · exact cases_pack_finite s _ ⟨by norm_num, by omega, .inl le_rfl⟩
    · next htop => exact cases_pack_finite s _ (fits_of_round hv hn (lt_of_le_of_ne hle htop))

/-- A result that is too big is the infinity of its sign. -/
lemma unpack_roundWithAccuracy {m : ℕ} {e : ℤ} {v : ℚ} {acc : Accuracy} (s : Sign) (hd : Describes m v acc)
    (hpos : 0 < v) (ha : Ample m e) (hnone : round? (v * 2 ^ e) = none) :
    (Float.Model.pack (roundWithAccuracy .binary64 s m e acc)).unpack = .infinity s := by
  have hexact := exactly?_roundWithAccuracy s hd hpos ha
  rw [map_signed, hnone] at hexact
  obtain ⟨n, hn, hw⟩ := exists_settled s hd hpos ha
  rw [hw] at hexact ⊢
  obtain ⟨r, hr⟩ | hinf := cases_settled s (mul_pos hpos (two_zpow_pos e)) hn
  · rw [hr] at hexact
    cases hexact
  · exact hinf

lemma rounded_signed (s : Sign) (r : ℚ) : rounded (signed s r) = signed s (rounded r) := by
  cases s with
  | negative => exact rounded_neg r
  | positive => rfl

lemma signed_signed (s : Sign) (r : ℚ) : signed s (signed s r) = r := by
  cases s with
  | negative => exact neg_neg r
  | positive => rfl

lemma round?_signed_eq_none {s : Sign} (h : round? (signed s r) = none) : round? r = none := by
  rwa [map_signed, Option.map_eq_none_iff] at h

/-- A positive number that has no finite double is rounded beyond them. -/
lemma le_rounded_of_none (hr : 0 < r) (h : round? r = none) : 2 ^ 1024 ≤ rounded r := by
  rw [round?] at h
  split at h
  · cases h
  · next hlt => rwa [abs_of_nonneg (rounded_nonneg hr.le), not_lt] at hlt

/-- A quotient of finite doubles is the rounded quotient of their numbers. -/
theorem roundsTo_div (ha : toRat? x = some a) (hb : toRat? y = some b) (hne : b ≠ 0) :
    RoundsTo (a / b) (x / y) := by
  have hdiv := toRat?_div ha hb hne
  cases hq : round? (a / b) with
  | some r => exact .finite (hdiv.trans ((round?_eq_some hq).1 ▸ hq))
  | none =>
    rw [toRat?_eq] at ha hb
    obtain ⟨-, -, rfl⟩ | ⟨s', m', e', hm', hy, rfl⟩ := cases_of_exactly? hb
    · exact absurd rfl hne
    obtain ⟨-, -, rfl⟩ | ⟨s, m, e, hm, hx, rfl⟩ := cases_of_exactly? ha
    · rw [zero_div, round?_zero] at hq
      cases hq
    obtain ⟨k, t, acc, v, hcore, hd, hpos, hample, hv⟩ := exists_divCore e e' hm hm'
    rw [← signed_div, ← hv] at hq ⊢
    have hnone := round?_signed_eq_none hq
    refine @RoundsTo.infinite _ _ (s / s') ?_ ?_
    · change (Float.Model.pack (UnpackedFloat.div .binary64 x.toModel.unpack y.toModel.unpack)).unpack = _
      rw [hx, hy, UnpackedFloat.div, hcore]
      exact unpack_roundWithAccuracy _ hd hpos hample hnone
    · rw [rounded_signed, signed_signed]
      exact le_rounded_of_none (mul_pos hpos (two_zpow_pos t)) hnone

/-- Finite doubles are in the order of their numbers. -/
lemma le_iff (ha : toRat? x = some a) (hb : toRat? y = some b) : x ≤ y ↔ a ≤ b := by
  change decide (x.toModel ≤ y.toModel) = true ↔ _
  rw [decide_eq_true_iff]
  change (UnpackedFloat.compare x.toModel.unpack y.toModel.unpack).any (·.isLE) = true ↔ _
  rw [compare_eq ha hb, Option.any_some, Ordering.isLE_iff_ne_gt]
  exact (not_congr compare_gt_iff_gt).trans not_lt

lemma le_of_compare (h : (UnpackedFloat.compare x.toModel.unpack y.toModel.unpack).any (·.isLE) = true) : x ≤ y := by
  change decide (x.toModel ≤ y.toModel) = true
  rw [decide_eq_true_iff]
  exact h

/-- The negative infinity is below all that is not NaN. -/
lemma negInfinity_le (hx : x.toModel.unpack = .infinity .negative) (hy : y.isNaN = false) : x ≤ y := by
  apply le_of_compare
  rw [hx]
  change y.toModel.unpack.isNaN = false at hy
  cases hu : y.toModel.unpack with
  | notANumber =>
    rw [hu] at hy
    cases hy
  | infinity s => cases s <;> rfl
  | zero s => rfl
  | finite s m e hm => rfl

/-- The infinity is above all that is not NaN. -/
lemma le_infinity (hx : x.isNaN = false) (hy : y.toModel.unpack = .infinity .positive) : x ≤ y := by
  apply le_of_compare
  rw [hy]
  change x.toModel.unpack.isNaN = false at hx
  cases hu : x.toModel.unpack with
  | notANumber =>
    rw [hu] at hx
    cases hx
  | infinity s => cases s <;> rfl
  | zero s => rfl
  | finite s m e hm => cases s <;> rfl

namespace RoundsTo

/-- What is rounded to is a number or an infinity. -/
lemma isNaN (h : RoundsTo r x) : x.isNaN = false := by
  cases h with
  | finite hx => exact (not_isNaN_of_toRat? hx).1
  | infinite hx _ =>
    change x.toModel.unpack.isNaN = false
    rw [hx]
    rfl

/-- Rounding keeps the order, also beyond the finite doubles. -/
theorem le (hx : RoundsTo r x) (hy : RoundsTo s y) (h : r ≤ s) : x ≤ y := by
  have hmono := rounded_mono h
  cases hx with
  | finite hxr =>
    cases hy with
    | finite hys => exact (le_iff hxr hys).mpr hmono
    | @infinite sign hys hbig =>
      cases sign with
      | positive => exact le_infinity (isNaN (.finite hxr)) hys
      | negative =>
        have hlow := (abs_lt.mp (isDouble_of_toRat? hxr).abs_lt).1
        exact absurd (hlow.trans_le hmono) (not_lt.mpr (le_neg_of_le_neg hbig))
  | @infinite sign hxr hbig =>
    cases sign with
    | negative => exact negInfinity_le hxr hy.isNaN
    | positive =>
      have hsbig : 2 ^ 1024 ≤ rounded s := hbig.trans hmono
      cases hy with
      | finite hys => exact absurd (abs_lt.mp (isDouble_of_toRat? hys).abs_lt).2 (not_lt.mpr hsbig)
      | @infinite sign' hys hbig' =>
        cases sign' with
        | positive => exact le_infinity (isNaN (.infinite hxr hbig)) hys
        | negative =>
          have hpos : (0 : ℚ) < 2 ^ 1024 := by positivity
          have hneg : rounded s < 0 := neg_pos.mp (hpos.trans_le hbig')
          exact absurd (hpos.trans_le hsbig) hneg.not_gt

/-- What is rounded to is finite if the number is not half a place above the largest finite double. -/
theorem isFinite_iff (h : RoundsTo r x) : x.isFinite = true ↔ |r| < 2 ^ 1024 - 2 ^ 970 := by
  rw [← abs_rounded_lt_iff, Number.isFinite_iff]
  cases h with
  | finite hx => exact iff_of_true ⟨_, hx⟩ (isDouble_of_toRat? hx).abs_lt
  | @infinite sign hx hbig =>
    refine iff_of_false ?_ ?_
    · rintro ⟨a, ha⟩
      rw [toRat?_eq, hx] at ha
      cases ha
    · rw [not_lt]
      cases sign with
      | negative => exact hbig.trans (neg_le_abs _)
      | positive => exact hbig.trans (le_abs_self _)

end RoundsTo

end Infinities

end Number

end Reckoner
