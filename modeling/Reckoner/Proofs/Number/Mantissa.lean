import Mathlib
import Reckoner.Proofs.Number.Packing
import Reckoner.Proofs.Number.Rounding

/-!
# Mantissas on their way to a double

Arithmetic on doubles computes a mantissa, an exponent and an accuracy, which says where the exact result lies
between this mantissa and the next (`Accuracy.Describes`). Shifting a mantissa keeps the description
(`Represents.shiftRight`), and rounding it follows the rule of `roundHalfEven` (`Represents.roundedMantissa`).
So what is packed in the end is `round?` of the exact result (`exactly?_roundWithAccuracy`).
-/

namespace Reckoner

namespace Number

open Float.Model (UnpackedFloat Format totalExponent)
open Float.Model.UnpackedFloat

/-- The number that an unpacked double stands for; infinities and NaN stand for none. -/
def exactly? : UnpackedFloat → Option ℚ
  | .zero _ => some 0
  | .finite s m e _ => some ((s.apply m : ℤ) * 2 ^ e)
  | .infinity _ | .notANumber => none

lemma toRat?_eq (x : Float) : toRat? x = exactly? x.toModel.unpack := by
  rw [toRat?]
  split <;> next h => rw [h, exactly?]

/-- The exact result `x` is the mantissa `m`, or where the accuracy says above it. -/
def Describes (m : ℕ) (x : ℚ) : Accuracy → Prop
  | .exact => x = m
  | .inexact .lt => m < x ∧ x < m + 1 / 2
  | .inexact .eq => x = m + 1 / 2
  | .inexact .gt => m + 1 / 2 < x ∧ x < m + 1

lemma describes_exact (m : ℕ) : Describes m m .exact :=
  rfl

lemma Describes.bounds {m : ℕ} {x : ℚ} {acc : Accuracy} (h : Describes m x acc) :
    m ≤ x ∧ x < m + 1 := by
  cases acc with
  | exact =>
    rw [Describes] at h
    constructor <;> linarith
  | inexact o =>
    cases o with
    | lt => constructor <;> linarith [h.1, h.2]
    | eq =>
      rw [Describes] at h
      constructor <;> linarith
    | gt => constructor <;> linarith [h.1, h.2]

/-- The remainder of a division says where the quotient lies. -/
lemma describes_accuracyOfFraction (n : ℕ) {d : ℕ} (hd : 0 < d) :
    Describes (n / d) ((n : ℚ) / d) (accuracyOfFraction (n % d) d) := by
  have hdq : (0 : ℚ) < d := by exact_mod_cast hd
  have hsplit : (n : ℚ) / d = (n / d : ℕ) + (n % d : ℕ) / d := by
    have : (n : ℚ) = d * (n / d : ℕ) + (n % d : ℕ) := by exact_mod_cast (Nat.div_add_mod n d).symm
    rw [div_eq_iff hdq.ne', add_mul, div_mul_cancel₀ _ hdq.ne', mul_comm _ (d : ℚ), ← this]
  have hlt : ((n % d : ℕ) : ℚ) < d := by exact_mod_cast Nat.mod_lt n hd
  rw [hsplit, accuracyOfFraction]
  generalize n / d = q
  generalize n % d = r at hlt
  split
  · next hz =>
    subst hz
    simp [Describes]
  · next hz =>
    have hr : (0 : ℚ) < r := by exact_mod_cast Nat.pos_of_ne_zero hz
    have hone : (r : ℚ) / d < 1 := (div_lt_one hdq).mpr hlt
    have hpos : (0 : ℚ) < r / d := div_pos hr hdq
    cases hc : compare (2 * r) d with
    | lt =>
      have hc : ((2 * r : ℕ) : ℚ) < d := by exact_mod_cast Nat.compare_eq_lt.mp hc
      push_cast at hc
      have : (r : ℚ) / d < 1 / 2 := by
        rw [div_lt_iff₀ hdq]
        linarith
      constructor <;> linarith
    | eq =>
      have hc : ((2 * r : ℕ) : ℚ) = d := by exact_mod_cast Nat.compare_eq_eq.mp hc
      push_cast at hc
      have : (r : ℚ) / d = 1 / 2 := by
        rw [div_eq_iff hdq.ne']
        linarith
      exact congrArg (_ + ·) this
    | gt =>
      have hc : (d : ℚ) < (2 * r : ℕ) := by exact_mod_cast Nat.compare_eq_gt.mp hc
      push_cast at hc
      have : 1 / 2 < (r : ℚ) / d := by
        rw [lt_div_iff₀ hdq]
        linarith
      constructor <;> linarith

/-- The round bit of a mantissa is the first binary place of `x` below it, and the sticky bit says whether
anything is left below that. -/
def Represents (em : ExtendedMantissa) (x : ℚ) : Prop :=
  ∃ rest : ℚ, x = em.mantissa + em.roundBit.toNat / 2 + rest ∧ 0 ≤ rest ∧ rest < 1 / 2 ∧
    (rest = 0 ↔ em.stickyBit = false)

lemma represents_ofMantissaAndAccuracy {m : ℕ} {x : ℚ} {acc : Accuracy} (h : Describes m x acc) :
    Represents (.ofMantissaAndAccuracy m acc) x := by
  cases acc with
  | exact =>
    refine ⟨0, ?_, le_rfl, by norm_num, by simp [ExtendedMantissa.ofMantissaAndAccuracy]⟩
    simpa [ExtendedMantissa.ofMantissaAndAccuracy, Describes] using h
  | inexact o =>
    cases o with
    | lt =>
      refine ⟨x - m, ?_, by linarith [h.1], by linarith [h.2], ?_⟩
      · simp [ExtendedMantissa.ofMantissaAndAccuracy]
      · simpa [ExtendedMantissa.ofMantissaAndAccuracy] using (sub_pos.mpr h.1).ne'
    | eq =>
      refine ⟨0, ?_, le_rfl, by norm_num, by simp [ExtendedMantissa.ofMantissaAndAccuracy]⟩
      simpa [ExtendedMantissa.ofMantissaAndAccuracy, Describes] using h
    | gt =>
      refine ⟨x - (m + 1 / 2), ?_, by linarith [h.1], by linarith [h.2], ?_⟩
      · simp [ExtendedMantissa.ofMantissaAndAccuracy]
      · simpa [ExtendedMantissa.ofMantissaAndAccuracy] using (sub_pos.mpr h.1).ne'

/-- One shift halves what is represented. -/
lemma Represents.shiftRightOne {em : ExtendedMantissa} {x : ℚ} (h : Represents em x) :
    Represents em.shiftRightOne (x / 2) := by
  obtain ⟨m, r, s⟩ := em
  obtain ⟨rest, rfl, hl, hu, hs⟩ := h
  have hm : (m : ℚ) = 2 * (m / 2 : ℕ) + (m % 2 != 0).toNat := by
    have hbit : (m % 2 != 0).toNat = m % 2 := by
      obtain h | h := Nat.mod_two_eq_zero_or_one m <;> rw [h] <;> rfl
    rw [hbit]
    exact_mod_cast (Nat.div_add_mod m 2).symm
  have hr : (0 : ℚ) ≤ r.toNat ∧ (r.toNat : ℚ) ≤ 1 := by
    cases r <;> norm_num
  -- What the round bit and the rest were worth is the new rest.
  refine ⟨(r.toNat / 2 + rest) / 2, ?_, by linarith [hr.1], by linarith [hr.2], ?_⟩
  · simp only [ExtendedMantissa.shiftRightOne, hm]
    ring
  · simp only [ExtendedMantissa.shiftRightOne, Bool.or_eq_false_iff] at hs ⊢
    rw [← hs]
    constructor
    · intro h0
      have hz : rest = 0 := by linarith [hr.1]
      refine ⟨?_, hz⟩
      cases r with
      | false => rfl
      | true =>
        norm_num at h0
        linarith
    · rintro ⟨rfl, rfl⟩
      norm_num

/-- Shifting divides what is represented by a power of two. -/
theorem Represents.shiftRight {em : ExtendedMantissa} {x : ℚ} (h : Represents em x) (k : ℕ) :
    Represents (em >>> k) (x / 2 ^ k) := by
  change Represents (k.repeat ExtendedMantissa.shiftRightOne em) _
  induction k with
  | zero => simpa [Nat.repeat] using h
  | succ k ih =>
    rw [Nat.repeat, pow_succ, ← div_div]
    exact ih.shiftRightOne

lemma mantissa_shiftRight (em : ExtendedMantissa) (k : ℕ) :
    (em >>> k).mantissa = em.mantissa / 2 ^ k := by
  change (k.repeat ExtendedMantissa.shiftRightOne em).mantissa = _
  induction k with
  | zero => simp [Nat.repeat]
  | succ k ih =>
    rw [Nat.repeat, ExtendedMantissa.shiftRightOne, ih, Nat.div_div_eq_div_mul, pow_succ]

/-- The two bits are enough to round to the nearest whole number, a half to the even one. -/
theorem Represents.roundedMantissa {em : ExtendedMantissa} {x : ℚ} (h : Represents em x) :
    roundHalfEven x = em.roundedMantissa := by
  rw [roundHalfEven_eq_iff, ExtendedMantissa.roundedMantissa]
  obtain ⟨m, r, s⟩ := em
  obtain ⟨rest, rfl, hl, hu, hs⟩ := h
  cases r with
  | false =>
    -- Below one half the mantissa stays.
    left
    have hround : (ExtendedMantissa.accuracy ⟨m, false, s⟩).roundToNearestEven m = m := by
      cases s <;> rfl
    rw [hround, abs_lt]
    norm_num
    constructor <;> linarith
  | true =>
    cases s with
    | true =>
      left
      have hpos : 0 < rest := lt_of_le_of_ne hl (fun h => by simpa using hs.mp h.symm)
      change |_ - ((m + 1 : ℕ) : ℚ)| < _
      rw [abs_lt]
      push_cast
      norm_num
      constructor <;> linarith
    | false =>
      right
      obtain rfl : rest = 0 := hs.mpr rfl
      change |_ - ((m + m % 2 : ℕ) : ℚ)| = _ ∧ Even ((m + m % 2 : ℕ) : ℤ)
      obtain ⟨k, rfl | rfl⟩ := Nat.even_or_odd' m
      · rw [show 2 * k + 2 * k % 2 = 2 * k by omega]
        refine ⟨?_, k, by push_cast; ring⟩
        push_cast
        norm_num
      · rw [show 2 * k + 1 + (2 * k + 1) % 2 = 2 * k + 2 by omega]
        refine ⟨?_, k + 1, by push_cast; ring⟩
        rw [Bool.toNat_true]
        push_cast
        rw [show (2 * (k : ℚ) + 1 + 1 / 2 + 0 - (2 * k + 2)) = -(1 / 2) by ring, abs_neg]
        norm_num

/-- The exponent that a mantissa with its exponent is shifted to. -/
lemma targetExponent_eq (m : ℕ) (e : ℤ) :
    Format.binary64.targetExponent (totalExponent m e) = max (m.log2 + e - 52) (-1074) := by
  change max ((m.log2 : ℤ) + 1 + e - 53) (-1074) = _
  congr 1
  omega

/-- Enough digits, or an exponent as low as it gets: shifting is only to the right. -/
def Ample (m : ℕ) (e : ℤ) : Prop :=
  52 ≤ m.log2 ∨ e ≤ -1074

lemma place_eq {m : ℕ} {e : ℤ} {x : ℚ} (hm : (m : ℚ) ≤ x) (hx : x < m + 1) (hpos : 0 < x)
    (h : Ample m e) : place (x * 2 ^ e) = max (m.log2 + e - 52) (-1074) := by
  have he := two_zpow_pos e
  rw [place, abs_of_pos (mul_pos hpos he)]
  by_cases hz : m = 0
  · -- Less than the lowest place.
    subst hz
    have hlow : e ≤ -1074 := h.resolve_left (by decide)
    have hlt : x * 2 ^ e < 2 ^ e := by
      rw [Nat.cast_zero, zero_add] at hx
      exact mul_lt_of_lt_one_left he hx
    have hlog := (Int.lt_zpow_iff_log_lt (b := 2) (by norm_num) (mul_pos hpos he)).mp
      (by exact_mod_cast hlt)
    have : Nat.log2 0 = 0 := rfl
    omega
  · have hlog : Int.log 2 (x * 2 ^ e) = m.log2 + e := by
      rw [log_eq_iff (mul_pos hpos he), zpow_add₀ (by norm_num), zpow_natCast, add_right_comm,
        zpow_add₀ (by norm_num)]
      constructor
      · have : ((2 ^ m.log2 : ℕ) : ℚ) ≤ m := by exact_mod_cast Nat.log2_self_le hz
        push_cast at this
        exact mul_le_mul_of_nonneg_right (this.trans hm) he.le
      · have : ((m + 1 : ℕ) : ℚ) ≤ (2 ^ (m.log2 + 1) : ℕ) := by exact_mod_cast Nat.lt_log2_self
        push_cast at this
        have := hx.trans_le this
        exact mul_lt_mul_of_pos_right (by exact_mod_cast this) he
    rw [hlog]

/-- The digits `n` at the place `t`. A power of two beyond 53 digits moves one place up, and no digits are a
zero. -/
def settled (s : Sign) (n : ℕ) (t : ℤ) : UnpackedFloat :=
  if h : n = 0 then .zero s
  else if n = 2 ^ 53 then .finite s (2 ^ 52) (t + 1) (by norm_num)
  else .finite s n t (Nat.pos_of_ne_zero h)

/-- The second shift of rounding moves only what has become too long. -/
lemma settled_eq (s : Sign) {n : ℕ} {t : ℤ} (hn : n ≤ 2 ^ 53) (ht : -1074 ≤ t) {m : ℕ} {e : ℤ}
    (hm : m = n / 2 ^ (max (n.log2 + t - 52) (-1074) - t).toNat)
    (he : e = t + (max (n.log2 + t - 52) (-1074) - t).toNat) :
    (if h : m = 0 then .zero s else .finite s m e (Nat.pos_of_ne_zero h)) = settled s n t := by
  rw [settled]
  obtain hn | rfl := hn.lt_or_eq
  · have hlog : n.log2 ≤ 52 := by
      by_cases hz : n = 0
      · rw [hz]
        decide
      · exact Nat.le_of_lt_succ ((Nat.log2_lt hz).mpr hn)
    have hk : (max (n.log2 + t - 52) (-1074) - t).toNat = 0 := by omega
    rw [hk] at hm he
    simp only [pow_zero, Nat.div_one, Nat.cast_zero, add_zero] at hm he
    subst hm he
    simp only [hn.ne, if_false]
  · have hlog : (2 ^ 53).log2 = 53 := Nat.log2_two_pow
    have hk : (max (((2 ^ 53).log2 : ℕ) + t - 52) (-1074) - t).toNat = 1 := by
      rw [hlog]
      omega
    rw [hk] at hm he
    have hm : m = 2 ^ 52 := hm
    have he : e = t + 1 := he
    subst hm he
    simp

/-- Rounding a described result gives the digits of `roundHalfEven` at its place. -/
theorem exists_settled {m : ℕ} {e : ℤ} {x : ℚ} {acc : Accuracy} (s : Sign) (hd : Describes m x acc)
    (hpos : 0 < x) (ha : Ample m e) :
    ∃ n : ℕ, roundHalfEven (x * 2 ^ e / spacing (x * 2 ^ e)) = n ∧
      roundWithAccuracy .binary64 s m e acc = settled s n (place (x * 2 ^ e)) := by
  obtain ⟨hl, hu⟩ := hd.bounds
  have hplace := place_eq hl hu hpos ha
  have hlow : e ≤ max (m.log2 + e - 52) (-1074) := by
    obtain h | h := ha <;> omega
  have hk : e + (max (m.log2 + e - 52) (-1074) - e).toNat = max (m.log2 + e - 52) (-1074) := by omega
  have hdigits : x * 2 ^ e / spacing (x * 2 ^ e) =
      x / 2 ^ (max (m.log2 + e - 52) (-1074) - e).toNat := by
    rw [spacing, hplace]
    conv_lhs => rw [← hk, add_comm, ← two_pow_mul_zpow]
    exact mul_div_mul_right _ _ (two_zpow_pos e).ne'
  have hround := ((represents_ofMantissaAndAccuracy hd).shiftRight
    (max (m.log2 + e - 52) (-1074) - e).toNat).roundedMantissa
  refine ⟨_, hdigits ▸ hround, ?_⟩
  have hn := abs_digits_le (x * 2 ^ e)
  rw [hdigits, hround, Nat.abs_cast] at hn
  rw [hplace, roundWithAccuracy]
  simp only [shiftToTargetExponent, shiftToExponent, targetExponent_eq, hk]
  apply settled_eq s (by exact_mod_cast hn) (le_max_right _ _)
  · rw [mantissa_shiftRight]
    rfl
  · rfl

/-- A sign before a size. -/
def signed (s : Sign) (x : ℚ) : ℚ :=
  match s with
  | .negative => -x
  | .positive => x

lemma exactly?_finite (s : Sign) {m : ℕ} (e : ℤ) (hm : 0 < m) :
    exactly? (.finite s m e hm) = some (signed s (m * 2 ^ e)) := by
  cases s with
  | negative =>
    rw [exactly?, signed, Sign.apply]
    push_cast
    rw [neg_mul]
  | positive => rfl

lemma exactly?_zero (s : Sign) : exactly? (.zero s) = some 0 :=
  rfl

lemma map_signed (s : Sign) (r : ℚ) : round? (signed s r) = (round? r).map (signed s) := by
  cases s with
  | negative => exact round?_neg r
  | positive => cases h : round? r <;> exact h

/-- Digits that fit are a double as long as there is an exponent for them. -/
lemma exactly?_pack_finite (s : Sign) {m : ℕ} {e : ℤ} (hm : 0 < m) (h : Fits m e) :
    exactly? (Float.Model.pack (.finite s m e hm)).unpack =
      if (m : ℚ) * 2 ^ e < 2 ^ 1024 then some (signed s (m * 2 ^ e)) else none := by
  by_cases he : e ≤ 971
  · have hdouble : IsDouble (m * 2 ^ e) :=
      ⟨m, e, by rw [Int.cast_natCast], by exact_mod_cast h.upper, h.lowest, he⟩
    have hc : Canonical (.finite s m e hm) := ⟨h, he⟩
    rw [unpack_pack hc, exactly?_finite, if_pos (lt_of_abs_lt hdouble.abs_lt)]
  · have hlead : 2 ^ 52 ≤ m := h.lead.resolve_right (by omega)
    rw [unpack_pack_of_lt hm (by omega), if_neg]
    · rfl
    · rw [not_lt]
      calc (2 : ℚ) ^ 1024 = 2 ^ 52 * 2 ^ (972 : ℤ) := (two_pow_mul_zpow 52 972).symm
        _ ≤ m * 2 ^ e := by
          apply mul_le_mul (by exact_mod_cast hlead) _ (two_zpow_pos _).le m.cast_nonneg
          exact zpow_le_zpow_right₀ (by norm_num) (by omega)

/-- Rounded digits fit at their place. -/
lemma fits_of_round {v : ℚ} (hv : 0 < v) {n : ℕ} (hn : roundHalfEven (v / spacing v) = n)
    (hlt : n < 2 ^ 53) : Fits n (place v) := by
  refine ⟨hlt, le_max_right _ _, ?_⟩
  by_cases hlow : place v = -1074
  · exact .inr hlow
  · left
    have hlog : place v = Int.log 2 |v| - 52 := by
      rw [place] at hlow ⊢
      omega
    have hge := leading_le hv.ne' hlog
    rw [abs_of_pos hv, ← le_div_iff₀ (spacing_pos v)] at hge
    have hhalf := abs_sub_roundHalfEven (v / spacing v)
    rw [hn, Int.cast_natCast, abs_le] at hhalf
    have hnear : ((2 ^ 52 : ℕ) : ℚ) < (n + 1 : ℕ) := by
      push_cast
      linarith [hhalf.2]
    have : 2 ^ 52 < n + 1 := by exact_mod_cast hnear
    omega

/-- What is settled at a place packs to the double that rounding gives. -/
lemma exactly?_settled (s : Sign) {v : ℚ} (hv : 0 < v) {n : ℕ}
    (hn : roundHalfEven (v / spacing v) = n) :
    exactly? (Float.Model.pack (settled s n (place v))).unpack = round? (signed s v) := by
  have hrounded : rounded v = n * 2 ^ place v := by
    rw [rounded, hn, spacing, Int.cast_natCast]
  have hround : round? v =
      if (n : ℚ) * 2 ^ place v < 2 ^ 1024 then some ((n : ℚ) * 2 ^ place v) else none := by
    rw [round?, hrounded, abs_of_nonneg (mul_nonneg n.cast_nonneg (two_zpow_pos _).le)]
  have hle : n ≤ 2 ^ 53 := by
    have := abs_digits_le v
    rw [hn, Nat.abs_cast] at this
    exact_mod_cast this
  have hmin : -1074 ≤ place v := le_max_right _ _
  rw [map_signed, hround, settled]
  split
  · next hz =>
    have hc : Canonical (.zero s) := trivial
    rw [unpack_pack hc, exactly?_zero, hz]
    cases s <;> simp [signed]
  · next hz =>
    split
    · next htop =>
      -- One place up the digits fit again.
      have hpow : (n : ℚ) * 2 ^ place v = ((2 ^ 52 : ℕ) : ℚ) * 2 ^ (place v + 1) := by
        rw [htop, zpow_add_one₀ (by norm_num)]
        push_cast
        ring
      rw [exactly?_pack_finite s _ ⟨by norm_num, by omega, .inl le_rfl⟩, hpow]
      split <;> rfl
    · next htop =>
      rw [exactly?_pack_finite s _ (fits_of_round hv hn (lt_of_le_of_ne hle htop))]
      split <;> rfl

/-- The result of rounding a described result is the double nearest to it. -/
theorem exactly?_roundWithAccuracy {m : ℕ} {e : ℤ} {x : ℚ} {acc : Accuracy} (s : Sign)
    (hd : Describes m x acc) (hpos : 0 < x) (ha : Ample m e) :
    exactly? (Float.Model.pack (roundWithAccuracy .binary64 s m e acc)).unpack =
      round? (signed s (x * 2 ^ e)) := by
  obtain ⟨n, hn, hw⟩ := exists_settled s hd hpos ha
  rw [hw]
  exact exactly?_settled s (mul_pos hpos (two_zpow_pos e)) hn

end Number

end Reckoner
