import Mathlib
import Reckoner.Proofs.Number.Mantissa

/-!
# Arithmetic on doubles

On finite doubles every operation is the exact one followed by a single rounding: `toRat?_add`, `toRat?_sub`,
`toRat?_mul` and `toRat?_div`. Comparisons are those of the numbers (`lt_iff`, `beq_eq`), and a number other
than zero is one double only (`eq_of_toRat?`).
-/

namespace Reckoner

namespace Number

open Float.Model (UnpackedFloat Format totalExponent)
open Float.Model.UnpackedFloat

lemma ample_of_le {m : ℕ} {e : ℤ} (h : 2 ^ 52 ≤ m ∨ e ≤ -1074) : Ample m e := by
  obtain h | h := h
  · exact .inl ((Nat.le_log2 (by omega)).mpr h)
  · exact .inr h

lemma decreaseExponent_eq (m : ℕ) (e t : ℤ) :
    decreaseExponent m e t = (m * 2 ^ (e - t).toNat, e - (e - t).toNat) := by
  rw [decreaseExponent, Nat.shiftLeft_eq]

lemma cast_mul_two_pow (m k : ℕ) (e : ℤ) :
    ((m * 2 ^ k : ℕ) : ℚ) * 2 ^ (e - k) = m * 2 ^ e := by
  push_cast
  rw [mul_assoc, two_pow_mul_zpow, add_sub_cancel]

/-- Digits moved to their place are enough to round. -/
lemma ample_decrease {m : ℕ} (hm : 0 < m) {e : ℤ} {k : ℕ}
    (hk : k = (e - max (m.log2 + e - 52) (-1074)).toNat) : Ample (m * 2 ^ k) (e - k) := by
  by_cases hlow : e - k ≤ -1074
  · exact .inr hlow
  · apply ample_of_le
    left
    have hlog : 52 ≤ m.log2 + k := by omega
    calc 2 ^ 52 ≤ 2 ^ (m.log2 + k) := Nat.pow_le_pow_right (by norm_num) hlog
      _ = 2 ^ m.log2 * 2 ^ k := pow_add ..
      _ ≤ m * 2 ^ k := Nat.mul_le_mul_right _ (Nat.log2_self_le hm.ne')

/-- Whatever the digits, rounding gives the nearest double. -/
theorem exactly?_round (s : Sign) {m : ℕ} (hm : 0 < m) (e : ℤ) :
    exactly? (Float.Model.pack (UnpackedFloat.round .binary64 s m e)).unpack =
      round? (signed s (m * 2 ^ e)) := by
  rw [UnpackedFloat.round]
  simp only [targetExponent_eq, decreaseExponent_eq]
  generalize hk : (e - max (m.log2 + e - 52) (-1074)).toNat = k
  have hpos : (0 : ℚ) < (m * 2 ^ k : ℕ) := by exact_mod_cast Nat.mul_pos hm (Nat.two_pow_pos k)
  rw [exactly?_roundWithAccuracy s (describes_exact _) hpos (ample_decrease hm hk.symm),
    cast_mul_two_pow]

lemma exactly?_normalize (n e : ℤ) (z : Sign) :
    exactly? (Float.Model.pack (normalize .binary64 n e z)).unpack = round? (n * 2 ^ e) := by
  rw [UnpackedFloat.normalize]
  cases h : compare n 0 with
  | lt =>
    have hn : n < 0 := compare_lt_iff_lt.mp h
    obtain ⟨m, rfl⟩ := Int.exists_eq_neg_ofNat hn.le
    simp only [neg_neg, Int.toNat_natCast]
    rw [exactly?_round _ (by omega), signed]
    push_cast
    rw [neg_mul]
  | eq =>
    have hn : n = 0 := compare_eq_iff_eq.mp h
    have hc : Canonical (.zero z) := trivial
    simp only
    rw [unpack_pack hc, hn]
    simp [exactly?_zero]
  | gt =>
    have hn : 0 < n := compare_gt_iff_gt.mp h
    obtain ⟨m, rfl⟩ := Int.eq_ofNat_of_zero_le hn.le
    simp only [Int.toNat_natCast]
    rw [exactly?_round _ (by omega), signed, Int.cast_natCast]

section Unpacked

variable {u v : UnpackedFloat} {a b : ℚ}

/-- A double that is a number is a zero, or it has digits. -/
lemma cases_of_exactly? (ha : exactly? u = some a) :
    (∃ s, u = .zero s ∧ a = 0) ∨
      ∃ s m e hm, u = .finite s m e hm ∧ a = signed s (m * 2 ^ e) := by
  cases u with
  | infinity s => cases ha
  | notANumber => cases ha
  | zero s =>
    rw [exactly?_zero, Option.some_inj] at ha
    exact .inl ⟨s, rfl, ha.symm⟩
  | finite s m e hm =>
    rw [exactly?_finite, Option.some_inj] at ha
    exact .inr ⟨s, m, e, hm, rfl, ha.symm⟩

/-- Canonical numbers are doubles. -/
lemma isDouble_of_canonical (hu : Canonical u) (ha : exactly? u = some a) : IsDouble a := by
  obtain ⟨s, rfl, rfl⟩ | ⟨s, m, e, hm, rfl, -⟩ := cases_of_exactly? ha
  · exact ⟨0, 0, by norm_num, by norm_num, by norm_num, by norm_num⟩
  · cases ha
    obtain ⟨⟨hlt, hl, -⟩, he⟩ := hu
    refine ⟨s.apply m, e, rfl, ?_, hl, he⟩
    cases s with
    | negative =>
      rw [Sign.apply, abs_neg, Nat.abs_cast]
      exact_mod_cast hlt
    | positive =>
      rw [Sign.apply, Nat.abs_cast]
      exact_mod_cast hlt

lemma exactly?_pack (hu : Canonical u) (ha : exactly? u = some a) :
    exactly? (Float.Model.pack u).unpack = round? a := by
  rw [unpack_pack hu, ha, round?_of_isDouble (isDouble_of_canonical hu ha)]

lemma canonical_neg (hu : Canonical u) : Canonical u.neg := by
  cases u <;> exact hu

lemma apply_neg (s : Sign) (n : ℤ) : (-s).apply n = -s.apply n := by
  cases s with
  | negative => exact (neg_neg n).symm
  | positive => rfl

lemma exactly?_neg (ha : exactly? u = some a) : exactly? u.neg = some (-a) := by
  obtain ⟨s, rfl, rfl⟩ | ⟨s, m, e, hm, rfl, -⟩ := cases_of_exactly? ha
  · rfl
  · cases ha
    rw [UnpackedFloat.neg, exactly?, apply_neg]
    push_cast
    rw [neg_mul]

/-- Subtraction adds the negation. -/
lemma unpacked_sub_eq (u v : UnpackedFloat) :
    UnpackedFloat.sub .binary64 u v = UnpackedFloat.add .binary64 u v.neg := by
  cases u with
  | notANumber => rfl
  | infinity s => cases v <;> rfl
  | zero s => cases v <;> rfl
  | finite s m e hm =>
    cases v with
    | notANumber => rfl
    | infinity s' => rfl
    | zero s' => rfl
    | finite s' m' e' hm' =>
      simp only [UnpackedFloat.sub, UnpackedFloat.add, UnpackedFloat.neg, apply_neg, Int.sub_eq_add_neg]

lemma size_pos {m : ℕ} (e : ℤ) (hm : 0 < m) : (0 : ℚ) < m * 2 ^ e :=
  mul_pos (by exact_mod_cast hm) (two_zpow_pos e)

lemma signed_ne_zero (s : Sign) {m : ℕ} (e : ℤ) (hm : 0 < m) : signed s (m * 2 ^ e) ≠ 0 := by
  cases s with
  | negative => exact neg_ne_zero.mpr (size_pos e hm).ne'
  | positive => exact (size_pos e hm).ne'

lemma signed_decrease (s : Sign) (m : ℕ) {e t : ℤ} (ht : t ≤ e) :
    ((s.apply (m * 2 ^ (e - t).toNat : ℕ) : ℤ) : ℚ) * 2 ^ t = signed s (m * 2 ^ e) := by
  have hcast := cast_mul_two_pow m (e - t).toNat e
  have hmin : e - (e - t).toNat = t := by omega
  rw [hmin] at hcast
  cases s with
  | negative =>
    rw [Sign.apply, Int.cast_neg, neg_mul]
    exact congrArg Neg.neg hcast
  | positive => exact hcast

/-- Digits are added at the lower of their exponents. -/
lemma exists_add_finite (s s' : Sign) {m m' : ℕ} (e e' : ℤ) (hm : 0 < m) (hm' : 0 < m') :
    ∃ n t : ℤ, UnpackedFloat.add .binary64 (.finite s m e hm) (.finite s' m' e' hm') =
      normalize .binary64 n t .positive ∧
        (n : ℚ) * 2 ^ t = signed s (m * 2 ^ e) + signed s' (m' * 2 ^ e') := by
  refine ⟨_, min e e', by simp only [UnpackedFloat.add, decreaseExponent_eq]; rfl, ?_⟩
  rw [Int.cast_add, add_mul, signed_decrease s m (min_le_left _ _),
    signed_decrease s' m' (min_le_right _ _)]

theorem exactly?_add (hu : Canonical u) (hv : Canonical v) (ha : exactly? u = some a)
    (hb : exactly? v = some b) :
    exactly? (Float.Model.pack (UnpackedFloat.add .binary64 u v)).unpack = round? (a + b) := by
  obtain ⟨s, rfl, rfl⟩ | ⟨s, m, e, hm, rfl, rfl⟩ := cases_of_exactly? ha
  · rw [zero_add]
    obtain ⟨s', rfl, rfl⟩ | ⟨s', m', e', hm', rfl, -⟩ := cases_of_exactly? hb
    · simp only [UnpackedFloat.add]
      split <;> exact exactly?_pack trivial rfl
    · exact exactly?_pack hv hb
  · obtain ⟨s', rfl, rfl⟩ | ⟨s', m', e', hm', rfl, rfl⟩ := cases_of_exactly? hb
    · rw [add_zero]
      exact exactly?_pack hu ha
    · obtain ⟨n, t, hadd, hn⟩ := exists_add_finite s s' e e' hm hm'
      rw [hadd, exactly?_normalize, hn]

/-- A sum of zero is the plain zero, unless both numbers are zeros with a minus sign. -/
lemma add_eq_zero (ha : exactly? u = some a) (hb : exactly? v = some b) (hz : a + b = 0)
    (hn : u ≠ .zero .negative) : UnpackedFloat.add .binary64 u v = .zero .positive := by
  obtain ⟨s, rfl, rfl⟩ | ⟨s, m, e, hm, rfl, rfl⟩ := cases_of_exactly? ha
  · obtain ⟨s', rfl, rfl⟩ | ⟨s', m', e', hm', rfl, rfl⟩ := cases_of_exactly? hb
    · cases s with
      | negative => exact absurd rfl hn
      | positive => cases s' <;> rfl
    · rw [zero_add] at hz
      exact absurd hz (signed_ne_zero s' e' hm')
  · obtain ⟨s', rfl, rfl⟩ | ⟨s', m', e', hm', rfl, rfl⟩ := cases_of_exactly? hb
    · rw [add_zero] at hz
      exact absurd hz (signed_ne_zero s e hm)
    · obtain ⟨n, t, hadd, hsum⟩ := exists_add_finite s s' e e' hm hm'
      rw [hz, mul_eq_zero, or_iff_left (two_zpow_pos t).ne', Int.cast_eq_zero] at hsum
      rw [hadd, hsum]
      rfl

theorem exactly?_sub (hu : Canonical u) (hv : Canonical v) (ha : exactly? u = some a)
    (hb : exactly? v = some b) :
    exactly? (Float.Model.pack (UnpackedFloat.sub .binary64 u v)).unpack = round? (a - b) := by
  rw [unpacked_sub_eq, exactly?_add hu (canonical_neg hv) ha (exactly?_neg hb), sub_eq_add_neg]

/-- What is no number is packed as it is. -/
lemma exactly?_pack_none (hu : exactly? u = none) : exactly? (Float.Model.pack u).unpack = none := by
  have hc : Canonical u := by
    cases u with
    | finite s m e hm => cases hu
    | _ => trivial
  rw [unpack_pack hc, hu]

/-- A difference is a number only if both parts are. -/
lemma exactly?_sub_none (h : exactly? u = none ∨ exactly? v = none) :
    exactly? (Float.Model.pack (UnpackedFloat.sub .binary64 u v)).unpack = none := by
  have hinfinities (s s' : Sign) : exactly? (UnpackedFloat.sub .binary64 (.infinity s) (.infinity s')) = none := by
    rw [UnpackedFloat.sub]
    split <;> rfl
  apply exactly?_pack_none
  obtain hu | hv := h
  · cases u with
    | notANumber => rfl
    | infinity s =>
      cases v with
      | infinity s' => exact hinfinities s s'
      | _ => rfl
    | _ => cases hu
  · cases v with
    | notANumber => cases u <;> rfl
    | infinity s' =>
      cases u with
      | infinity s => exact hinfinities s s'
      | _ => rfl
    | _ => cases hv

/-- A product is a number only if both factors are. -/
lemma exactly?_mul_none (h : exactly? u = none ∨ exactly? v = none) :
    exactly? (Float.Model.pack (UnpackedFloat.mul .binary64 u v)).unpack = none := by
  apply exactly?_pack_none
  obtain hu | hv := h
  · cases u with
    | notANumber => rfl
    | infinity s => cases v <;> rfl
    | _ => cases hu
  · cases v with
    | notANumber => cases u <;> rfl
    | infinity s' => cases u <;> rfl
    | _ => cases hv

lemma signed_mul (s s' : Sign) (x y : ℚ) : signed (s * s') (x * y) = signed s x * signed s' y := by
  cases s <;> cases s' <;> simp only [signed, neg_mul, mul_neg, neg_neg]

lemma signed_div (s s' : Sign) (x y : ℚ) : signed (s / s') (x / y) = signed s x / signed s' y := by
  cases s <;> cases s' <;> simp only [signed, neg_div, div_neg, neg_neg] <;> rfl

/-- A product of digits, of which there are enough. -/
lemma exactly?_mul_finite (s s' : Sign) {m m' : ℕ} {e e' : ℤ} (hm : 0 < m) (hm' : 0 < m')
    (ha : Ample (m * m') (e + e')) :
    exactly? (Float.Model.pack
      (UnpackedFloat.mul .binary64 (.finite s m e hm) (.finite s' m' e' hm'))).unpack =
        round? (signed s (m * 2 ^ e) * signed s' (m' * 2 ^ e')) := by
  have hpos : (0 : ℚ) < (m * m' : ℕ) := by exact_mod_cast Nat.mul_pos hm hm'
  rw [UnpackedFloat.mul, exactly?_roundWithAccuracy (s * s') (describes_exact _) hpos ha, ← signed_mul,
    zpow_add₀ (by norm_num)]
  congr 2
  push_cast
  ring

theorem exactly?_mul (hu : Canonical u) (hv : Canonical v) (ha : exactly? u = some a)
    (hb : exactly? v = some b) :
    exactly? (Float.Model.pack (UnpackedFloat.mul .binary64 u v)).unpack = round? (a * b) := by
  obtain ⟨s, rfl, rfl⟩ | ⟨s, m, e, hm, rfl, rfl⟩ := cases_of_exactly? ha
  · rw [zero_mul]
    obtain ⟨s', rfl, -⟩ | ⟨s', m', e', hm', rfl, -⟩ := cases_of_exactly? hb
    · exact exactly?_pack trivial rfl
    · exact exactly?_pack trivial rfl
  · obtain ⟨s', rfl, rfl⟩ | ⟨s', m', e', hm', rfl, rfl⟩ := cases_of_exactly? hb
    · rw [mul_zero]
      exact exactly?_pack trivial rfl
    · apply exactly?_mul_finite
      apply ample_of_le
      obtain ⟨⟨-, -, h⟩, -⟩ := hu
      obtain ⟨⟨-, -, h'⟩, -⟩ := hv
      obtain h | h := h
      · exact .inl (h.trans (Nat.le_mul_of_pos_right m hm'))
      · obtain h' | h' := h'
        · exact .inl (h'.trans (Nat.le_mul_of_pos_left m' hm))
        · exact .inr (by omega)

/-- The quotient is taken with enough digits, and with its accuracy. -/
lemma exists_divCore {m m' : ℕ} (e e' : ℤ) (hm : 0 < m) (hm' : 0 < m') :
    ∃ (q : ℕ) (t : ℤ) (acc : Accuracy) (x : ℚ), divCore .binary64 m e m' e' = (q, t, acc) ∧
      Describes q x acc ∧ 0 < x ∧ Ample q t ∧ x * 2 ^ t = m * 2 ^ e / (m' * 2 ^ e') := by
  have htarget : Format.binary64.targetExponent (totalExponent m e - totalExponent m' e') =
      max ((m.log2 : ℤ) + e - (m'.log2 + e') - 53) (-1074) := by
    change max ((m.log2 : ℤ) + 1 + e - (m'.log2 + 1 + e') - 53) (-1074) = _
    congr 1
    omega
  rw [divCore, htarget]
  generalize ht : min (e - e') (max ((m.log2 : ℤ) + e - (m'.log2 + e') - 53) (-1074)) = t
  obtain ⟨k, hk⟩ := Int.eq_ofNat_of_zero_le (show 0 ≤ e - e' - t by omega)
  have hm'q : (0 : ℚ) < m' := by exact_mod_cast hm'
  rw [hk, Int.toNat_natCast, Nat.shiftLeft_eq]
  refine ⟨_, t, _, (m * 2 ^ k : ℕ) / m', rfl, describes_accuracyOfFraction _ hm', ?_, ?_, ?_⟩
  · apply div_pos _ hm'q
    exact_mod_cast Nat.mul_pos hm (Nat.two_pow_pos k)
  · by_cases hlow : t ≤ -1074
    · exact .inr hlow
    · apply ample_of_le
      left
      have hlog : 52 + (m'.log2 + 1) ≤ m.log2 + k := by omega
      rw [Nat.le_div_iff_mul_le hm']
      calc 2 ^ 52 * m' ≤ 2 ^ 52 * 2 ^ (m'.log2 + 1) := Nat.mul_le_mul_left _ Nat.lt_log2_self.le
        _ = 2 ^ (52 + (m'.log2 + 1)) := (pow_add ..).symm
        _ ≤ 2 ^ (m.log2 + k) := Nat.pow_le_pow_right (by norm_num) hlog
        _ = 2 ^ m.log2 * 2 ^ k := pow_add ..
        _ ≤ m * 2 ^ k := Nat.mul_le_mul_right _ (Nat.log2_self_le hm.ne')
  · have he : e = (k : ℤ) + t + e' := by omega
    have hcancel : (m * 2 ^ e : ℚ) = m * 2 ^ k * 2 ^ t * 2 ^ e' := by
      rw [he, zpow_add₀ (by norm_num), ← two_pow_mul_zpow]
      ring
    rw [hcancel, mul_div_mul_right _ _ (two_zpow_pos e').ne']
    push_cast
    ring

lemma exactly?_div_finite (s s' : Sign) {m m' : ℕ} {e e' : ℤ} (hm : 0 < m) (hm' : 0 < m') :
    exactly? (Float.Model.pack
      (UnpackedFloat.div .binary64 (.finite s m e hm) (.finite s' m' e' hm'))).unpack =
        round? (signed s (m * 2 ^ e) / signed s' (m' * 2 ^ e')) := by
  obtain ⟨q, t, acc, x, hcore, hd, hpos, ha, hx⟩ := exists_divCore e e' hm hm'
  rw [UnpackedFloat.div, hcore]
  simp only
  rw [exactly?_roundWithAccuracy (s / s') hd hpos ha, hx, signed_div]

theorem exactly?_div (ha : exactly? u = some a) (hb : exactly? v = some b) (hne : b ≠ 0) :
    exactly? (Float.Model.pack (UnpackedFloat.div .binary64 u v)).unpack = round? (a / b) := by
  obtain ⟨s', rfl, hzero⟩ | ⟨s', m', e', hm', rfl, rfl⟩ := cases_of_exactly? hb
  · exact absurd hzero hne
  · obtain ⟨s, rfl, rfl⟩ | ⟨s, m, e, hm, rfl, rfl⟩ := cases_of_exactly? ha
    · rw [zero_div]
      exact exactly?_pack trivial rfl
    · exact exactly?_div_finite s s' hm hm'

/-- Of digits that fit, those with the higher exponent are the greater ones. -/
lemma Fits.lt {m m' : ℕ} {e e' : ℤ} (h : Fits m e) (h' : Fits m' e') (hlt : e < e') :
    (m : ℚ) * 2 ^ e < m' * 2 ^ e' := by
  have hlead : 2 ^ 52 ≤ m' := h'.lead.resolve_right (by have := h.lowest; omega)
  have hm : (m : ℚ) < 2 ^ 53 := by exact_mod_cast h.upper
  have hm' : (2 : ℚ) ^ 52 ≤ m' := by exact_mod_cast hlead
  calc (m : ℚ) * 2 ^ e < 2 ^ 53 * 2 ^ e := mul_lt_mul_of_pos_right hm (two_zpow_pos e)
    _ = 2 ^ 52 * 2 ^ (e + 1) := by
      rw [zpow_add_one₀ (by norm_num)]
      ring
    _ ≤ m' * 2 ^ e' := by
      apply mul_le_mul hm' _ (two_zpow_pos _).le m'.cast_nonneg
      exact zpow_le_zpow_right₀ (by norm_num) hlt

/-- Digits that fit compare as their exponents do, and then as they do. -/
lemma compare_digits {m m' : ℕ} {e e' : ℤ} (h : Fits m e) (h' : Fits m' e') :
    (compare e e').then (compare m m') = compare ((m : ℚ) * 2 ^ e) (m' * 2 ^ e') := by
  obtain hlt | rfl | hlt := lt_trichotomy e e'
  · rw [compare_lt_iff_lt.mpr hlt, compare_lt_iff_lt.mpr (h.lt h' hlt)]
    rfl
  · rw [compare_eq_iff_eq.mpr rfl, Ordering.then]
    have he := two_zpow_pos e
    obtain hlt | rfl | hlt := lt_trichotomy m m'
    · rw [compare_lt_iff_lt.mpr hlt, compare_lt_iff_lt.mpr]
      exact mul_lt_mul_of_pos_right (by exact_mod_cast hlt) he
    · rw [compare_eq_iff_eq.mpr rfl, compare_eq_iff_eq.mpr rfl]
    · rw [compare_gt_iff_gt.mpr hlt, compare_gt_iff_gt.mpr]
      exact mul_lt_mul_of_pos_right (by exact_mod_cast hlt) he
  · rw [compare_gt_iff_gt.mpr hlt, compare_gt_iff_gt.mpr (h'.lt h hlt)]
    rfl

lemma signed_inj {s s' : Sign} {x y : ℚ} (hx : 0 < x) (hy : 0 < y) (h : signed s x = signed s' y) :
    s = s' ∧ x = y := by
  cases s <;> cases s' <;> simp only [signed] at h
  · exact ⟨rfl, neg_injective h⟩
  · linarith
  · linarith
  · exact ⟨rfl, h⟩

/-- Digits that fit are determined by the number. -/
lemma Fits.eq {m m' : ℕ} {e e' : ℤ} (h : Fits m e) (h' : Fits m' e')
    (heq : (m : ℚ) * 2 ^ e = m' * 2 ^ e') : m = m' ∧ e = e' := by
  obtain hlt | rfl | hlt := lt_trichotomy e e'
  · exact absurd heq (h.lt h' hlt).ne
  · have := mul_right_cancel₀ (two_zpow_pos e).ne' heq
    exact ⟨by exact_mod_cast this, rfl⟩
  · exact absurd heq (h'.lt h hlt).ne'

lemma eq_of_exactly? (hu : Canonical u) (hv : Canonical v) (ha : exactly? u = some a)
    (hb : exactly? v = some a) (hne : a ≠ 0) : u = v := by
  obtain ⟨s, -, hzero⟩ | ⟨s, m, e, hm, rfl, rfl⟩ := cases_of_exactly? ha
  · exact absurd hzero hne
  · obtain ⟨s', -, hzero⟩ | ⟨s', m', e', hm', rfl, h⟩ := cases_of_exactly? hb
    · exact absurd hzero hne
    · obtain ⟨rfl, hsize⟩ := signed_inj (size_pos e hm) (size_pos e' hm') h
      obtain ⟨rfl, rfl⟩ := hu.1.eq hv.1 hsize
      rfl

lemma compare_neg_neg (p q : ℚ) : compare (-p) (-q) = (compare p q).swap := by
  obtain hlt | rfl | hlt := lt_trichotomy p q
  · rw [compare_lt_iff_lt.mpr hlt, compare_gt_iff_gt.mpr (neg_lt_neg hlt)]
    rfl
  · rw [compare_eq_iff_eq.mpr rfl, compare_eq_iff_eq.mpr rfl]
    rfl
  · rw [compare_gt_iff_gt.mpr hlt, compare_lt_iff_lt.mpr (neg_lt_neg hlt)]
    rfl

/-- Comparing doubles compares their numbers. -/
theorem exactly?_compare (hu : Canonical u) (hv : Canonical v) (ha : exactly? u = some a)
    (hb : exactly? v = some b) : UnpackedFloat.compare u v = some (compare a b) := by
  have hpositive {m : ℕ} (e : ℤ) (hm : 0 < m) : 0 < signed .positive (m * 2 ^ e) := size_pos e hm
  have hnegative {m : ℕ} (e : ℤ) (hm : 0 < m) : signed .negative (m * 2 ^ e) < 0 :=
    neg_neg_of_pos (size_pos e hm)
  obtain ⟨s, rfl, rfl⟩ | ⟨s, m, e, hm, rfl, rfl⟩ := cases_of_exactly? ha
  · obtain ⟨s', rfl, rfl⟩ | ⟨s', m', e', hm', rfl, rfl⟩ := cases_of_exactly? hb
    · rw [UnpackedFloat.compare, compare_eq_iff_eq.mpr rfl]
    · cases s' with
      | negative => rw [UnpackedFloat.compare, compare_gt_iff_gt.mpr (hnegative e' hm')]
      | positive => rw [UnpackedFloat.compare, compare_lt_iff_lt.mpr (hpositive e' hm')]
  · obtain ⟨s', rfl, rfl⟩ | ⟨s', m', e', hm', rfl, rfl⟩ := cases_of_exactly? hb
    · cases s with
      | negative => rw [UnpackedFloat.compare, compare_lt_iff_lt.mpr (hnegative e hm)]
      | positive => rw [UnpackedFloat.compare, compare_gt_iff_gt.mpr (hpositive e hm)]
    · cases s with
      | negative =>
        cases s' with
        | negative =>
          rw [UnpackedFloat.compare, compare_digits hu.1 hv.1, ← compare_neg_neg]
          rfl
        | positive =>
          have hlt := (hnegative e hm).trans (hpositive e' hm')
          rw [UnpackedFloat.compare, compare_lt_iff_lt.mpr hlt]
      | positive =>
        cases s' with
        | negative =>
          have hlt := (hnegative e' hm').trans (hpositive e hm)
          rw [UnpackedFloat.compare, compare_gt_iff_gt.mpr hlt]
        | positive =>
          rw [UnpackedFloat.compare, compare_digits hu.1 hv.1]
          rfl

end Unpacked

section Float

variable {x y : Float} {a b : ℚ}

lemma isDouble_of_toRat? (h : toRat? x = some a) : IsDouble a := by
  rw [toRat?_eq] at h
  exact isDouble_of_canonical (canonical_unpack _) h

theorem toRat?_add (ha : toRat? x = some a) (hb : toRat? y = some b) :
    toRat? (x + y) = round? (a + b) := by
  rw [toRat?_eq] at ha hb ⊢
  exact exactly?_add (canonical_unpack _) (canonical_unpack _) ha hb

theorem toRat?_sub (ha : toRat? x = some a) (hb : toRat? y = some b) :
    toRat? (x - y) = round? (a - b) := by
  rw [toRat?_eq] at ha hb ⊢
  exact exactly?_sub (canonical_unpack _) (canonical_unpack _) ha hb

theorem toRat?_mul (ha : toRat? x = some a) (hb : toRat? y = some b) :
    toRat? (x * y) = round? (a * b) := by
  rw [toRat?_eq] at ha hb ⊢
  exact exactly?_mul (canonical_unpack _) (canonical_unpack _) ha hb

theorem toRat?_div (ha : toRat? x = some a) (hb : toRat? y = some b) (hne : b ≠ 0) :
    toRat? (x / y) = round? (a / b) := by
  rw [toRat?_eq] at ha hb ⊢
  exact exactly?_div ha hb hne

/-- The parts of a finite difference are finite. -/
lemma exists_of_toRat?_sub (h : toRat? (x - y) = some a) :
    (∃ b, toRat? x = some b) ∧ ∃ c, toRat? y = some c := by
  rw [← Option.ne_none_iff_exists', ← Option.ne_none_iff_exists', ← not_or, toRat?_eq, toRat?_eq]
  rw [toRat?_eq] at h
  intro hnone
  cases (exactly?_sub_none hnone).symm.trans h

/-- The factors of a finite product are finite. -/
lemma exists_of_toRat?_mul (h : toRat? (x * y) = some a) :
    (∃ b, toRat? x = some b) ∧ ∃ c, toRat? y = some c := by
  rw [← Option.ne_none_iff_exists', ← Option.ne_none_iff_exists', ← not_or, toRat?_eq, toRat?_eq]
  rw [toRat?_eq] at h
  intro hnone
  cases (exactly?_mul_none hnone).symm.trans h

theorem toRat?_neg (ha : toRat? x = some a) : toRat? (-x) = some (-a) := by
  have hneg := isDouble_of_toRat? ha
  rw [toRat?_eq] at ha ⊢
  have hc := canonical_unpack x.toModel
  have hround := exactly?_pack (canonical_neg hc) (exactly?_neg ha)
  have hdouble := isDouble_of_canonical (canonical_neg hc) (exactly?_neg ha)
  rw [round?_of_isDouble hdouble] at hround
  exact hround

lemma compare_eq (ha : toRat? x = some a) (hb : toRat? y = some b) :
    UnpackedFloat.compare x.toModel.unpack y.toModel.unpack = some (compare a b) := by
  rw [toRat?_eq] at ha hb
  exact exactly?_compare (canonical_unpack _) (canonical_unpack _) ha hb

theorem beq_eq (ha : toRat? x = some a) (hb : toRat? y = some b) : (x == y) = decide (a = b) := by
  change (UnpackedFloat.compare x.toModel.unpack y.toModel.unpack == some .eq) = _
  rw [compare_eq ha hb, Bool.eq_iff_iff, decide_eq_true_iff, beq_iff_eq, Option.some_inj,
    compare_eq_iff_eq]

theorem lt_iff (ha : toRat? x = some a) (hb : toRat? y = some b) : x < y ↔ a < b := by
  change decide (x.toModel < y.toModel) = true ↔ _
  rw [decide_eq_true_iff]
  change (UnpackedFloat.compare x.toModel.unpack y.toModel.unpack == some .lt) = true ↔ _
  rw [compare_eq ha hb, beq_iff_eq, Option.some_inj, compare_lt_iff_lt]

lemma isFinite_iff (x : Float) : x.isFinite = true ↔ ∃ a, toRat? x = some a := by
  change UnpackedFloat.isFinite x.toModel.unpack = true ↔ _
  rw [toRat?_eq]
  cases x.toModel.unpack with
  | infinity s => simp [UnpackedFloat.isFinite, exactly?]
  | notANumber => simp [UnpackedFloat.isFinite, exactly?]
  | zero s => simp [UnpackedFloat.isFinite, exactly?]
  | finite s m e hm => simp [UnpackedFloat.isFinite, exactly?]

/-- A finite double is neither NaN nor an infinity. -/
lemma not_isNaN_of_toRat? (ha : toRat? x = some a) : x.isNaN = false ∧ x.isInf = false := by
  rw [toRat?_eq] at ha
  change x.toModel.unpack.isNaN = false ∧ x.toModel.unpack.isInf = false
  obtain ⟨s, hu, -⟩ | ⟨s, m, e, hm, hu, -⟩ := cases_of_exactly? ha
  · rw [hu]
    exact ⟨rfl, rfl⟩
  · rw [hu]
    exact ⟨rfl, rfl⟩

/-- A double without a size is NaN or one of the infinities. -/
lemma cases_notFinite (hx : toRat? x = none) :
    x.isNaN = true ∧ x = 0 / 0 ∨ x.isNaN = false ∧ isNegative x = true ∧ x = -1 / 0 ∨
      x.isNaN = false ∧ isNegative x = false ∧ x = 1 / 0 := by
  have hnan : x.isNaN = x.toModel.unpack.isNaN := rfl
  rw [hnan, isNegative]
  rw [toRat?] at hx
  cases hu : x.toModel.unpack with
  | zero s => rw [hu] at hx; cases hx
  | finite s m e hm => rw [hu] at hx; cases hx
  | notANumber => exact .inl ⟨rfl, eq_of_unpack_eq hu⟩
  | infinity s =>
    cases s with
    | negative => exact .inr (.inl ⟨rfl, rfl, eq_of_unpack_eq hu⟩)
    | positive => exact .inr (.inr ⟨rfl, rfl, eq_of_unpack_eq hu⟩)

/-- A number other than zero is one double. -/
theorem eq_of_toRat? (ha : toRat? x = some a) (hb : toRat? y = some a) (hne : a ≠ 0) : x = y := by
  apply eq_of_unpack_eq
  rw [toRat?_eq] at ha hb
  have hx := canonical_unpack x.toModel
  have hy := canonical_unpack y.toModel
  generalize x.toModel.unpack = u at ha hx
  generalize y.toModel.unpack = v at hb hy
  exact eq_of_exactly? hx hy ha hb hne

/-- Zero is two doubles, one for each sign. -/
lemma unpack_of_zero (h : toRat? x = some 0) : ∃ s, x.toModel.unpack = .zero s := by
  rw [toRat?_eq] at h
  obtain ⟨s, hs, -⟩ | ⟨s, m, e, hm, -, hzero⟩ := cases_of_exactly? h
  · exact ⟨s, hs⟩
  · exact absurd hzero.symm (signed_ne_zero s e hm)

lemma isNegative_of_zero {s : Sign} (h : x.toModel.unpack = .zero s) :
    isNegative x = false ↔ s = .positive := by
  rw [isNegative, h]
  cases s <;> simp

/-- The plain zero is the zero without a minus sign. -/
lemma eq_zero_of_toRat? (h : toRat? x = some 0) (hn : isNegative x = false) : x = 0 := by
  obtain ⟨s, hs⟩ := unpack_of_zero h
  obtain rfl := (isNegative_of_zero hs).mp hn
  apply eq_of_unpack_eq
  rw [hs]
  rfl

/-- A sum of zero has no minus sign, unless both numbers are zeros with one. -/
theorem isNegative_add (ha : toRat? x = some a) (hb : toRat? y = some b) (hz : a + b = 0)
    (hn : a = 0 → isNegative x = false) : isNegative (x + y) = false := by
  have hne : x.toModel.unpack ≠ .zero .negative := by
    intro h
    have ha0 : a = 0 := by
      rw [toRat?_eq, h, exactly?_zero, Option.some_inj] at ha
      exact ha.symm
    have := (isNegative_of_zero h).mp (hn ha0)
    cases this
  rw [toRat?_eq] at ha hb
  have hsum : (x + y).toModel.unpack = .zero .positive := by
    change (Float.Model.pack (UnpackedFloat.add .binary64 _ _)).unpack = _
    rw [add_eq_zero ha hb hz hne]
    exact unpack_pack (u := .zero .positive) trivial
  exact (isNegative_of_zero hsum).mpr rfl

end Float

end Number

end Reckoner
