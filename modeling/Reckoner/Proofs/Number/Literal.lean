import Mathlib
import Reckoner.Number.Numeral
import Reckoner.Proofs.Number.Arithmetic

/-!
# Decimal literals

A decimal literal is read as the double nearest to the number written (`toRat?_ofScientific`), also where its
digits or its exponent are beyond what doubles hold: the short way for few digits divides two exact doubles,
the long one rounds a quotient of whole numbers, and both round once.
-/

namespace Reckoner

namespace Number

open Float.Model (UnpackedFloat Format)
open Float.Model.UnpackedFloat

/-- Nothing beyond the largest exponent is rounded to a double. -/
lemma round?_eq_none {r : ℚ} (h : 2 ^ 1024 ≤ |r|) : round? r = none := by
  rw [round?, if_neg]
  intro hlt
  have hr : r ≠ 0 := by
    rintro rfl
    rw [abs_zero] at h
    exact absurd h (by norm_num)
  have hlog := lt_zpow_log hr
  have hplace := place_le hlt
  have hle : Int.log 2 |r| - 52 ≤ place r := le_max_left _ _
  have : |r| < 2 ^ (1024 : ℤ) :=
    hlog.trans_le (zpow_le_zpow_right₀ (by norm_num) (by omega))
  exact absurd this (not_lt.mpr (by exact_mod_cast h))

/-- What is much smaller than the lowest place is rounded to zero. -/
lemma round?_eq_zero {r : ℚ} (h : |r| < 2 ^ (-1076 : ℤ)) : round? r = some 0 := by
  by_cases hr : r = 0
  · rw [hr, round?_zero]
  have hplace : place r = -1074 := by
    have := (Int.lt_zpow_iff_log_lt (b := 2) (by norm_num) (abs_pos.mpr hr)).mp (by exact_mod_cast h)
    rw [place]
    omega
  have hsmall : |r / spacing r| < 1 / 2 := by
    rw [abs_div, abs_of_pos (spacing_pos r), div_lt_iff₀ (spacing_pos r), spacing, hplace]
    refine h.trans_le ?_
    rw [show (-1076 : ℤ) = -1 + -1 + -1074 by norm_num, zpow_add₀ (by norm_num), zpow_add₀ (by norm_num)]
    apply mul_le_mul_of_nonneg_right _ (two_zpow_pos _).le
    norm_num
  have hround : roundHalfEven (r / spacing r) = 0 := by
    rw [roundHalfEven_eq_iff, Int.cast_zero, sub_zero]
    exact .inl hsmall
  rw [round?, rounded, hround, Int.cast_zero, zero_mul, if_pos (by norm_num)]

lemma isDouble_natCast {m : ℕ} (hm : m ≤ 2 ^ 53) : IsDouble m := by
  have h := isDouble_of_digits (n := m) (e := 0) (by rw [Nat.abs_cast]; exact_mod_cast hm) (by norm_num)
    (by norm_num)
  simpa using h

lemma toRat?_toFloat {m : ℕ} (hm : m < 2 ^ 53) : toRat? m.toUInt64.toFloat = some (m : ℚ) := by
  have hnat : m.toUInt64.toNat = m := Nat.mod_eq_of_lt (by omega)
  rw [toRat?_eq]
  change exactly? (Float.Model.pack
    (normalize .binary64 (m.toUInt64.toNat : ℤ) 0 .positive)).unpack = _
  rw [exactly?_normalize, hnat, zpow_zero, mul_one, Int.cast_natCast,
    round?_of_isDouble (isDouble_natCast hm.le)]

lemma size_powersOfTen : Float.exactlyRepresentablePowersOfTen.size = 23 :=
  rfl

lemma toRat?_powersOfTen : ∀ e : Fin Float.exactlyRepresentablePowersOfTen.size,
    toRat? Float.exactlyRepresentablePowersOfTen[e] = some (10 ^ (e : ℕ)) := by
  decide +kernel

section Scientific

variable {m : ℕ} {e : ℤ}

lemma round?_of_lt_exponent (hm : 0 < m) (he : 2048 < e) : round? ((m : ℚ) * 10 ^ e) = none := by
  have hone : (1 : ℚ) ≤ m := by exact_mod_cast hm
  have hten : (0 : ℚ) < 10 ^ e := zpow_pos (by norm_num) e
  apply round?_eq_none
  rw [abs_of_pos (mul_pos (by linarith) hten)]
  calc (2 : ℚ) ^ 1024 ≤ 10 ^ 1024 := pow_le_pow_left₀ (by norm_num) (by norm_num) _
    _ = 10 ^ (1024 : ℤ) := (zpow_natCast 10 1024).symm
    _ ≤ 10 ^ e := zpow_le_zpow_right₀ (by norm_num) (by omega)
    _ ≤ m * 10 ^ e := le_mul_of_one_le_left hten.le hone

lemma round?_of_exponent_lt (hm : 0 < m) (he : e < -(2048 + m.log2)) :
    round? ((m : ℚ) * 10 ^ e) = some 0 := by
  have hmq : (0 : ℚ) < m := by exact_mod_cast hm
  apply round?_eq_zero
  rw [abs_of_pos (mul_pos hmq (zpow_pos (by norm_num) e))]
  have hlog : (m : ℚ) < 2 ^ (m.log2 + 1) := by exact_mod_cast Nat.lt_log2_self
  have hpow : (10 : ℚ) ^ e ≤ 2 ^ e := by
    obtain ⟨k, rfl⟩ := Int.exists_eq_neg_ofNat (a := e) (by omega)
    rw [zpow_neg, zpow_neg, zpow_natCast, zpow_natCast]
    exact inv_anti₀ (by positivity) (pow_le_pow_left₀ (by norm_num) (by norm_num) k)
  calc (m : ℚ) * 10 ^ e ≤ m * 2 ^ e := mul_le_mul_of_nonneg_left hpow hmq.le
    _ < 2 ^ (m.log2 + 1) * 2 ^ e := mul_lt_mul_of_pos_right hlog (two_zpow_pos e)
    _ = 2 ^ (((m.log2 + 1 : ℕ) : ℤ) + e) := two_pow_mul_zpow _ e
    _ ≤ 2 ^ (-1076 : ℤ) := zpow_le_zpow_right₀ (by norm_num) (by omega)

/-- Whole numbers of any size are multiplied and divided with one rounding. -/
theorem toRat?_ofModel_ofScientific (m : ℕ) (e : ℤ) :
    toRat? (.ofModel (Float.Model.ofScientific m e)) = round? (m * 10 ^ e) := by
  rw [toRat?_eq]
  change exactly? (Float.Model.pack (UnpackedFloat.ofScientific .binary64 m e)).unpack = _
  rw [UnpackedFloat.ofScientific]
  split
  · next hm =>
    rw [hm, Nat.cast_zero, zero_mul]
    exact exactly?_pack trivial rfl
  · next hm =>
    have hpos : 0 < m := Nat.pos_of_ne_zero hm
    split
    · next he =>
      rw [round?_of_lt_exponent hpos he, unpack_pack (u := .infinity _) trivial]
      rfl
    · split
      · next he =>
        rw [round?_of_exponent_lt hpos he]
        exact (exactly?_pack (u := .zero _) trivial rfl).trans round?_zero
      · split
        · next he =>
          obtain ⟨k, rfl⟩ := Int.eq_ofNat_of_zero_le he
          have hdigits := cast_mul_two_pow m 53 0
          rw [zpow_zero, mul_one] at hdigits
          rw [exactly?_mul_finite]
          · simp only [signed, Nat.shiftLeft_eq, zpow_zero, mul_one, Nat.cast_pow, Nat.cast_ofNat,
              zpow_natCast]
            exact congrArg (fun x : ℚ => round? (x * 10 ^ k)) hdigits
          · apply ample_of_le
            left
            rw [Nat.shiftLeft_eq]
            calc 2 ^ 52 ≤ 2 ^ 53 := by norm_num
              _ ≤ m * 2 ^ 53 := Nat.le_mul_of_pos_left _ hpos
              _ ≤ m * 2 ^ 53 * 10 ^ k := Nat.le_mul_of_pos_right _ (by positivity)
        · next he =>
          obtain ⟨k, rfl⟩ := Int.exists_eq_neg_ofNat (a := e) (by omega)
          rw [exactly?_div_finite]
          simp only [signed, neg_neg, Int.toNat_natCast, zpow_zero, mul_one, Nat.cast_pow,
            Nat.cast_ofNat, zpow_neg, zpow_natCast, div_eq_mul_inv]

end Scientific

/-- A decimal literal is the double nearest to the number it writes. -/
theorem toRat?_ofScientific (m : ℕ) (s : Bool) (e : ℕ) :
    toRat? (Float.ofScientific m s e) = round? (if s then m / 10 ^ e else m * 10 ^ e) := by
  rw [Float.ofScientific]
  split
  · next h =>
    have hm := toRat?_toFloat h.1
    have he := toRat?_powersOfTen ⟨e, by rw [size_powersOfTen]; omega⟩
    cases s with
    | true => exact toRat?_div hm he (by positivity)
    | false => exact toRat?_mul hm he
  · cases s with
    | true =>
      have hneg : Int.negOfNat e = -(e : ℤ) := by cases e <;> rfl
      rw [toRat?_ofModel_ofScientific, if_pos rfl, if_pos rfl, hneg, zpow_neg, zpow_natCast,
        div_eq_mul_inv]
    | false =>
      rw [toRat?_ofModel_ofScientific, if_neg (by decide), if_neg (by decide), Int.ofNat_eq_natCast,
        zpow_natCast]

lemma toRat?_ofNat {n : ℕ} (hn : n ≤ 2 ^ 53) : toRat? (OfNat.ofNat n : Float) = some (n : ℚ) := by
  change toRat? (Float.ofScientific n false 0) = _
  rw [toRat?_ofScientific, if_neg (by decide), pow_zero, mul_one,
    round?_of_isDouble (isDouble_natCast hn)]

@[simp] lemma toRat?_zero : toRat? 0 = some 0 :=
  toRat?_ofNat (n := 0) (by norm_num)

@[simp] lemma toRat?_one : toRat? 1 = some 1 := by
  exact_mod_cast toRat?_ofNat (n := 1) (by norm_num)

lemma toRat?_two : toRat? 2 = some 2 := by
  exact_mod_cast toRat?_ofNat (n := 2) (by norm_num)

lemma toRat?_four : toRat? 4 = some 4 := by
  exact_mod_cast toRat?_ofNat (n := 4) (by norm_num)

lemma toRat?_neg_one : toRat? (-1) = some (-1) :=
  toRat?_neg toRat?_one

section Products

variable {x : Float} {a : ℚ}

lemma unpack_mul_zero {s s' : Sign} {m : ℕ} {e : ℤ} {hm : 0 < m} {y : Float}
    (hy : y.toModel.unpack = .finite s m e hm) (hx : x.toModel.unpack = .zero s') :
    (y * x).toModel.unpack = .zero (s * s') := by
  change (Float.Model.pack (UnpackedFloat.mul .binary64 _ _)).unpack = _
  rw [hy, hx]
  exact unpack_pack (u := .zero _) trivial

lemma unpack_neg_zero {s : Sign} (hx : x.toModel.unpack = .zero s) :
    (-x).toModel.unpack = .zero (-s) := by
  change (Float.Model.pack (UnpackedFloat.neg x.toModel.unpack)).unpack = _
  rw [hx]
  exact unpack_pack (u := .zero _) trivial

lemma unpack_one :
    (1 : Float).toModel.unpack = .finite .positive (2 ^ 52) (-52) (Nat.two_pow_pos 52) :=
  rfl

lemma unpack_neg_one :
    (-1 : Float).toModel.unpack = .finite .negative (2 ^ 52) (-52) (Nat.two_pow_pos 52) :=
  rfl

/-- One times a double is the double itself, also for the zeros. -/
theorem one_mul_eq (ha : toRat? x = some a) : 1 * x = x := by
  by_cases hz : a = 0
  · subst hz
    obtain ⟨s, hs⟩ := unpack_of_zero ha
    apply eq_of_unpack_eq
    rw [unpack_mul_zero unpack_one hs, hs]
    cases s <;> rfl
  · refine eq_of_toRat? ?_ ha hz
    rw [toRat?_mul toRat?_one ha, one_mul, round?_of_isDouble (isDouble_of_toRat? ha)]

/-- Minus one times a double is its negation, also for the zeros. -/
theorem neg_one_mul_eq (ha : toRat? x = some a) : -1 * x = -x := by
  by_cases hz : a = 0
  · subst hz
    obtain ⟨s, hs⟩ := unpack_of_zero ha
    apply eq_of_unpack_eq
    rw [unpack_mul_zero unpack_neg_one hs, unpack_neg_zero hs]
    cases s <;> rfl
  · have hneg := toRat?_neg ha
    refine eq_of_toRat? ?_ hneg (neg_ne_zero.mpr hz)
    rw [toRat?_mul toRat?_neg_one ha, neg_one_mul, round?_of_isDouble (isDouble_of_toRat? hneg)]

lemma beq_zero_of_none (h : toRat? x = none) : (x == 0) = false := by
  change (UnpackedFloat.compare x.toModel.unpack (.zero .positive) == some .eq) = false
  rw [toRat?_eq] at h
  generalize x.toModel.unpack = u at h
  cases u with
  | infinity s => cases s <;> rfl
  | notANumber => rfl
  | zero s => cases h
  | finite s m e hm => cases h

/-- A double other than zero is not zero when doubled, whether or not that is finite. -/
theorem two_mul_beq_zero (ha : toRat? x = some a) (hne : a ≠ 0) : (2 * x == 0) = false := by
  have hmul := toRat?_mul toRat?_two ha
  rw [round?, rounded_two_mul (isDouble_of_toRat? ha)] at hmul
  split at hmul
  · rw [beq_eq hmul toRat?_zero, decide_eq_false_iff_not]
    exact mul_ne_zero (by norm_num) hne
  · exact beq_zero_of_none hmul

end Products

end Number

namespace Numeral

/-- The number that a numeral writes. -/
def exact (n : Numeral) : ℚ :=
  Text.natOfDigits (n.whole ++ n.fraction) / 10 ^ n.fraction.length

/-- Digits alone denote a natural number. -/
lemma exact_whole (s : List Char) : exact ⟨s, []⟩ = Text.natOfDigits s := by
  rw [exact, List.append_nil, List.length_nil, pow_zero, div_one]

/-- The value of a numeral is the double nearest to the number written. -/
theorem toRat?_value (n : Numeral) : Number.toRat? n.value = Number.round? n.exact :=
  Number.toRat?_ofScientific _ true _

end Numeral

end Reckoner
