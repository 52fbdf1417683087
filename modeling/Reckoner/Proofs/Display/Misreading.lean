import Mathlib
import Reckoner.Proofs.Number.HalfUp
import Reckoner.Proofs.Number.Shortest
import Reckoner.Symbol.Constant

/-!
# Numbers that are read as others

Two forms of a displayed number have another meaning in an expression. The blank of `n p/q` is dropped, so that the
digits of `n` and `p` are one numeral. The letter of an exponent is the constant, so that `se-k` is `s * e - k`. Few
operations are between what is read and what is shown, so their errors tell the two apart: a mixed fraction is another
number unless its denominator moves the whole number by as many places as the numerator has (`rounded_mixed_ne`), and an
exponent always leads to another number (`rounded_euler_ne`).
-/

namespace Reckoner

namespace Number

variable {r : ℚ} {k : ℤ}

lemma round?_of_moderate (h : |r| ≤ 2 ^ 100) : round? r = some (rounded r) :=
  round?_of_abs_le (h.trans (pow_le_pow_right₀ (by norm_num) (by norm_num)))

lemma isDouble_one : IsDouble 1 := by
  exact_mod_cast isDouble_natCast (m := 1) (by norm_num)

/-- The error of a rounded number above the subnormal ones, in parts of the number. -/
lemma bounds_rounded (hk : -1022 ≤ k) (h : 2 ^ k ≤ r) :
    (2 ^ 53 - 1) * r ≤ 2 ^ 53 * rounded r ∧ 2 ^ 53 * rounded r ≤ (2 ^ 53 + 1) * r := by
  have hpos : 0 < r := (two_zpow_pos k).trans_le h
  have hlog : k ≤ Int.log 2 |r| := by
    rw [abs_of_pos hpos]
    exact (Int.zpow_le_iff_le_log (by norm_num) hpos).mp (by exact_mod_cast h)
  have hplace : place r = Int.log 2 |r| - 52 := by
    rw [place]
    omega
  have hlead := leading_le hpos.ne' hplace
  rw [abs_of_pos hpos] at hlead
  obtain ⟨hlow, hhigh⟩ := abs_le.mp (abs_rounded_sub_self_le r)
  constructor <;> linarith

/-- The error of a rounded quotient by a number that is not too large, in parts of the dividend. -/
lemma bounds_rounded_div {d : ℚ} (hr : 1 ≤ r) (hpos : 0 < d) (hd : d ≤ 10 ^ 16) :
    (2 ^ 53 - 1) * r ≤ 2 ^ 53 * rounded (r / d) * d ∧ 2 ^ 53 * rounded (r / d) * d ≤ (2 ^ 53 + 1) * r := by
  have hlow : (2 : ℚ) ^ (-60 : ℤ) ≤ r / d := by
    rw [le_div_iff₀ hpos]
    norm_num
    linarith
  have h := bounds_rounded (by norm_num) hlow
  rwa [← mul_div_assoc, ← mul_div_assoc, div_le_iff₀ hpos, le_div_iff₀ hpos] at h

section Mixed

variable {n p q t : ℕ}

/-- The number read, over a denominator, is of moderate size. -/
lemma mixed_moderate (hn : n ≤ 2 ^ 53) (hpt : p < t) (ht : t ≤ 100000) (hq : 0 < q) :
    round? ((n * t + p : ℕ) : ℚ) = some (rounded ((n * t + p : ℕ) : ℚ)) ∧
      round? (rounded ((n * t + p : ℕ) : ℚ) / q) = some (rounded (rounded ((n * t + p : ℕ) : ℚ) / q)) := by
  have hread : n * t + p ≤ 2 ^ 72 := by nlinarith
  generalize n * t + p = read at *
  have hread : (read : ℚ) ≤ 2 ^ 72 := by exact_mod_cast hread
  have hnonneg : (0 : ℚ) ≤ read := Nat.cast_nonneg _
  have hpos := rounded_nonneg hnonneg
  have hle := rounded_le (isDouble_two_pow (by norm_num)) hread
  have hone : (1 : ℚ) ≤ q := by exact_mod_cast hq
  constructor
  · refine round?_of_moderate ?_
    rw [abs_of_nonneg hnonneg]
    exact hread.trans (by norm_num)
  · refine round?_of_moderate ?_
    rw [abs_of_nonneg (by positivity)]
    exact (div_le_self hpos hone).trans (hle.trans (by norm_num))

/-- The numerator read and the numerator shown differ by the whole number at least. -/
lemma numerators_apart (hne : q ≠ t) :
    n * t + p + n ≤ n * q + p ∨ n * q + p + n ≤ n * t + p := by
  rcases Nat.lt_or_gt_of_ne hne with h | h
  · exact .inr (by nlinarith)
  · exact .inl (by nlinarith)

/-- The digits of the whole number and of the numerator side by side, over a denominator that does not fit. -/
theorem rounded_mixed_ne (hn : 0 < n) (hp : p < q) (hq : q ≤ 100000) (hpt : p < t) (ht : t ≤ 100000) (hne : q ≠ t) :
    rounded (rounded ((n * t + p : ℕ) : ℚ) / q) ≠ rounded (n + p / q) := by
  intro heq
  have hpos : (0 : ℚ) < q := by exact_mod_cast (p.zero_le.trans_lt hp)
  have hq' : (q : ℚ) ≤ 10 ^ 16 := by exact_mod_cast hq.trans (by norm_num)
  have hshown : (n : ℚ) + p / q = (n * q + p : ℕ) / q := by
    push_cast
    field_simp
  rw [hshown] at heq
  -- Both numerators are at most 200000 times the whole number, so the errors are small beside what they differ by.
  have hgap := numerators_apart (n := n) (p := p) hne
  have hread : 1 ≤ n * t + p ∧ n * t + p ≤ 200000 * n := ⟨by nlinarith, by nlinarith⟩
  have hshow : 1 ≤ n * q + p ∧ n * q + p ≤ 200000 * n := ⟨by nlinarith, by nlinarith⟩
  generalize n * t + p = read at *
  generalize n * q + p = shown at *
  have hread' : (1 : ℚ) ≤ read ∧ (read : ℚ) ≤ 200000 * n := by exact_mod_cast hread
  have hshow' : (1 : ℚ) ≤ shown ∧ (shown : ℚ) ≤ 200000 * n := by exact_mod_cast hshow
  have hgap' : (read : ℚ) + n ≤ shown ∨ (shown : ℚ) + n ≤ read := by exact_mod_cast hgap
  have hone : 1 ≤ rounded (read : ℚ) := le_rounded isDouble_one hread'.1
  obtain ⟨hnum₁, hnum₂⟩ := bounds_rounded (r := read) (k := 0) (by norm_num) (by simpa using hread'.1)
  obtain ⟨hquot₁, hquot₂⟩ := bounds_rounded_div hone hpos hq'
  obtain ⟨hshown₁, hshown₂⟩ := bounds_rounded_div hshow'.1 hpos hq'
  rw [heq] at hquot₁ hquot₂
  have hn' : (1 : ℚ) ≤ n := by exact_mod_cast hn
  rcases hgap' with h | h <;> linarith

/-- The digits side by side are the numerator if the denominator fits. -/
lemma rounded_mixed_eq (ht : 0 < t) (h : n * t + p ≤ 2 ^ 53) :
    rounded (rounded ((n * t + p : ℕ) : ℚ) / t) = rounded (n + p / t) := by
  have ht' : (t : ℚ) ≠ 0 := by exact_mod_cast ht.ne'
  rw [rounded_of_isDouble (isDouble_natCast h)]
  congr 1
  push_cast
  field_simp

/-- A power of ten is the denominator of no double. -/
lemma not_isDouble_of_den_eq {d : ℕ} (hd : d ≠ 0) (h : r.den = 10 ^ d) : ¬IsDouble r := by
  intro hr
  obtain ⟨k, hk⟩ := exists_den_eq hr
  have hfive : 5 ∣ 2 ^ k := by
    rw [← hk, h]
    exact dvd_pow (by norm_num) hd
  exact absurd (Nat.prime_five.dvd_of_dvd_pow hfive) (by norm_num)

/-- A double with a long fraction has a short whole part. -/
lemma abs_lt_of_den (h : IsDouble r) (hden : 100000 < r.den) : |r| < 2 ^ 36 := by
  by_contra hlarge
  obtain ⟨m, hm⟩ := h.exists_multiple_of_le (k := -16) (by norm_num at hlarge ⊢; exact hlarge)
  have hdvd : (r.den : ℤ) ∣ 65536 := by
    have hr : r = Rat.divInt m 65536 := by
      rw [hm, Rat.divInt_eq_div, zpow_neg, ← div_eq_mul_inv]
      norm_num
    rw [hr]
    exact Rat.den_dvd m 65536
  have := Int.le_of_dvd (by norm_num) hdvd
  omega

end Mixed

section Exponent

variable {s a : ℚ} {p : ℤ}

/-- The number of the constant. -/
def euler : ℚ :=
  6121026514868073 / 2 ^ 51

lemma toRat?_euler : toRat? Constant.e.value = some euler := by
  decide +kernel

/-- The product of a number and the constant, with the errors of both roundings. -/
lemma bounds_product (hlow : 1 ≤ s) :
    (2 ^ 53 - 1) ^ 2 * (s * euler) ≤ (2 ^ 53) ^ 2 * rounded (rounded s * euler) ∧
      (2 ^ 53) ^ 2 * rounded (rounded s * euler) ≤ (2 ^ 53 + 1) ^ 2 * (s * euler) := by
  obtain ⟨h₁, h₂⟩ := bounds_rounded (r := s) (k := 0) (by norm_num) (by simpa using hlow)
  have heuler : 2 < euler ∧ euler < 3 := by norm_num [euler]
  have hone : 1 ≤ rounded s * euler := by nlinarith
  obtain ⟨h₃, h₄⟩ := bounds_rounded (k := 0) (by norm_num) (by simpa using hone)
  constructor <;> nlinarith

/-- The product of a number from one to ten and the constant is a double of moderate size. -/
lemma product_moderate (hlow : 1 ≤ s) (hhigh : s < 10) :
    round? (rounded s * euler) = some (rounded (rounded s * euler)) ∧
      2 ≤ rounded (rounded s * euler) ∧ rounded (rounded s * euler) ≤ 28 := by
  obtain ⟨h₁, h₂⟩ := bounds_product hlow
  have heuler : 27 / 10 < euler ∧ euler < 275 / 100 := by norm_num [euler]
  refine ⟨round?_of_moderate ?_, by nlinarith, by nlinarith⟩
  obtain ⟨h₃, h₄⟩ := bounds_rounded (r := s) (k := 0) (by norm_num) (by simpa using hlow)
  rw [abs_le]
  constructor <;> nlinarith

/-- No multiple of 2^-51 is the difference of a product with the constant and a small whole number, and that product
divided by a power of ten. -/
lemma no_multiple {k : ℕ} {j : ℤ} (hlow : 5 ≤ k) (hhigh : k ≤ 16)
    (h₁ : (k * 2 ^ 51 + j) * 2 ^ 51 * (2 ^ 53 - 1) * 2 ^ 53 ≤ j * 10 ^ k * 6121026514868073 * (2 ^ 53 + 1) ^ 2)
    (h₂ : j * 10 ^ k * 6121026514868073 * (2 ^ 53 - 1) ^ 2 ≤ (k * 2 ^ 51 + j) * 2 ^ 51 * (2 ^ 53 + 1) * 2 ^ 53) :
    False := by
  interval_cases k <;> omega

lemma rounded_small_le {k : ℕ} (hhigh : s < 10) (hk : 5 ≤ k) : rounded (s / 10 ^ k) ≤ 1 := by
  have hten : (10 : ℚ) ^ 5 ≤ 10 ^ k := pow_le_pow_right₀ (by norm_num) hk
  refine rounded_le isDouble_one ?_
  rw [div_le_one (by positivity)]
  linarith

/-- A double from two on has 51 binary places at most, and so has its difference from a whole number. -/
lemma exists_places (h : IsDouble r) (hlow : 2 ≤ r) (k : ℕ) : ∃ j : ℤ, r - k = j / 2 ^ 51 := by
  obtain ⟨m, hm⟩ := h.exists_multiple_of_le (k := -51) (by rw [abs_of_pos (by linarith)]; norm_num; linarith)
  refine ⟨m - k * 2 ^ 51, ?_⟩
  rw [hm, zpow_neg, zpow_ofNat]
  push_cast
  ring

/-- A number with 51 binary places is a double if it is not rounded to zero or below, nor above one. -/
lemma rounded_places {j : ℤ} (hpos : 0 < rounded (j / 2 ^ 51)) (hle : rounded (j / 2 ^ 51) ≤ 1) :
    0 < j ∧ rounded (j / 2 ^ 51) = j / 2 ^ 51 := by
  have hlow : 0 < j := by
    by_contra hneg
    have hle : (j / 2 ^ 51 : ℚ) ≤ 0 := div_nonpos_of_nonpos_of_nonneg (by exact_mod_cast not_lt.mp hneg) (by positivity)
    have := rounded_mono hle
    rw [rounded_zero] at this
    linarith
  have hhigh : j ≤ 2 ^ 53 := by
    by_contra hlarge
    have hfour : ((4 : ℕ) : ℚ) ≤ j / 2 ^ 51 := by
      rw [le_div_iff₀ (by positivity)]
      have : (2 ^ 53 : ℚ) < j := by exact_mod_cast not_le.mp hlarge
      push_cast
      linarith
    have := le_rounded (isDouble_natCast (m := 4) (by norm_num)) hfour
    push_cast at this
    linarith
  refine ⟨hlow, ?_⟩
  rw [div_eq_mul_inv, ← zpow_ofNat, ← zpow_neg]
  exact rounded_of_isDouble (isDouble_of_digits (by rw [abs_of_pos hlow]; exact hhigh) (by norm_num) (by norm_num))

/-- What is rounded to a number with 51 binary places is not too small. -/
lemma exponent_le {k : ℕ} {j : ℤ} (hhigh : s < 10) (hj : 0 < j) (h : (j / 2 ^ 51 : ℚ) = rounded (s / 10 ^ k)) :
    k ≤ 16 := by
  by_contra hlarge
  have hsmall : s / 10 ^ k ≤ (1 : ℤ) * 2 ^ (-53 : ℤ) := by
    have : (10 : ℚ) ^ 17 ≤ 10 ^ k := pow_le_pow_right₀ (by norm_num) (by omega)
    rw [div_le_iff₀ (by positivity)]
    norm_num
    linarith
  have hlow := rounded_le (isDouble_of_digits (by norm_num) (by norm_num) (by norm_num)) hsmall
  have hj : (1 : ℚ) ≤ j := by exact_mod_cast hj
  rw [← h, div_le_iff₀ (by positivity)] at hlow
  norm_num at hlow
  linarith

/-- The product less a whole number is not the number with an exponent below zero. -/
lemma rounded_product_sub_ne {k : ℕ} (hlow : 1 ≤ s) (hhigh : s < 10) (hk : 5 ≤ k) (hpos : 0 < rounded (s / 10 ^ k)) :
    rounded (rounded (rounded s * euler) - k) ≠ rounded (s / 10 ^ k) := by
  intro heq
  obtain ⟨hproduct₁, hproduct₂⟩ := bounds_product hlow
  obtain ⟨hround, htwo, -⟩ := product_moderate hlow hhigh
  generalize rounded (rounded s * euler) = product at *
  have hle := rounded_small_le hhigh hk
  -- The difference is exact, so what is shown is the product less the whole number.
  obtain ⟨j, hj⟩ := exists_places (isDouble_of_round? hround) htwo k
  rw [hj] at heq
  rw [← heq] at hpos hle
  obtain ⟨hj₀, hexact⟩ := rounded_places hpos hle
  rw [hexact] at heq
  have hk' := exponent_le hhigh hj₀ heq
  obtain ⟨hshown₁, hshown₂⟩ := bounds_rounded_div hlow (by positivity) (pow_le_pow_right₀ (by norm_num) hk')
  rw [← heq] at hshown₁ hshown₂
  rw [show product = k + j / 2 ^ 51 by linarith, euler] at hproduct₁ hproduct₂
  have h₁ : ((k : ℚ) * 2 ^ 51 + j) * 2 ^ 51 * (2 ^ 53 - 1) * 2 ^ 53 ≤
      j * 10 ^ k * 6121026514868073 * (2 ^ 53 + 1) ^ 2 := by
    linarith
  have h₂ : (j : ℚ) * 10 ^ k * 6121026514868073 * (2 ^ 53 - 1) ^ 2 ≤
      (k * 2 ^ 51 + j) * 2 ^ 51 * (2 ^ 53 + 1) * 2 ^ 53 := by
    linarith
  exact no_multiple hk hk' (by exact_mod_cast h₁) (by exact_mod_cast h₂)

/-- The product with its sign and the exponent are summed without overflow. -/
lemma abs_product_add_le (hlow : 1 ≤ s) (hhigh : s < 10) (hp : |p| ≤ 1100) :
    |(if a < 0 then -rounded (rounded s * euler) else rounded (rounded s * euler)) + p| ≤ 1128 := by
  obtain ⟨-, htwo, hlarge⟩ := product_moderate hlow hhigh
  have hp' : |(p : ℚ)| ≤ 1100 := by exact_mod_cast hp
  obtain ⟨hp₁, hp₂⟩ := abs_le.mp hp'
  rw [abs_le]
  split <;> constructor <;> linarith

/-- Below zero the product and the exponent are both negative, and their sum is less than what is shown. -/
lemma rounded_small_lt {k : ℕ} (hlow : 1 ≤ s) (hhigh : s < 10) (hk : 5 ≤ k) :
    rounded (s / 10 ^ k) < rounded (rounded (rounded s * euler) + k) := by
  obtain ⟨-, htwo, -⟩ := product_moderate hlow hhigh
  have hk' : (5 : ℚ) ≤ k := by exact_mod_cast hk
  have hread := le_rounded (isDouble_natCast (m := 7) (by norm_num))
    (show ((7 : ℕ) : ℚ) ≤ rounded (rounded s * euler) + k by push_cast; linarith)
  push_cast at hread
  linarith [rounded_small_le hhigh hk]

/-- A number with a large exponent is above every sum of the product and the exponent. -/
lemma lt_rounded_large (hlow : 1 ≤ s) (hp : 16 ≤ p) : 1128 < rounded (s * 10 ^ p) := by
  have hten : (10 : ℚ) ^ 16 ≤ s * 10 ^ p := by
    have : (10 : ℚ) ^ (16 : ℤ) ≤ 10 ^ p := zpow_le_zpow_right₀ (by norm_num) hp
    rw [zpow_ofNat] at this
    nlinarith
  have hlong := le_rounded (isDouble_natCast (m := 10 ^ 15) (by norm_num))
    (show ((10 ^ 15 : ℕ) : ℚ) ≤ s * 10 ^ p by push_cast; linarith)
  push_cast at hlong
  linarith

/-- A number far from one that is shown with an exponent is not what its text is read as. -/
theorem rounded_euler_ne (hlow : 1 ≤ s) (hhigh : s < 10) (hbound : |p| ≤ 1100) (hp : p ≤ -5 ∨ 16 ≤ p)
    (ha : round? (s * 10 ^ p) = some |a|) (hne : a ≠ 0) :
    rounded ((if a < 0 then -rounded (rounded s * euler) else rounded (rounded s * euler)) + p) ≠ a := by
  intro heq
  have hshown := (round?_eq_some ha).1
  obtain hsmall | hlarge := hp
  · obtain ⟨k, rfl⟩ := Int.exists_eq_neg_ofNat (a := p) (by omega)
    have hk : 5 ≤ k := by omega
    rw [zpow_neg, zpow_natCast, ← div_eq_mul_inv] at hshown
    push_cast at heq
    by_cases hneg : a < 0
    · have hlt := rounded_small_lt hlow hhigh hk
      rw [if_pos hneg, ← neg_add, rounded_neg] at heq
      rw [← hshown, abs_of_neg hneg] at hlt
      linarith
    · rw [if_neg hneg, ← sub_eq_add_neg, ← abs_of_nonneg (not_lt.mp hneg), hshown] at heq
      exact rounded_product_sub_ne hlow hhigh hk (hshown ▸ abs_pos.mpr hne) heq
  · have hread := rounded_le (isDouble_natCast (m := 1128) (by norm_num))
      (by exact_mod_cast abs_product_add_le (a := a) hlow hhigh hbound)
    rw [← abs_rounded, heq, hshown] at hread
    push_cast at hread
    exact hread.not_gt (lt_rounded_large hlow hlarge)

end Exponent

end Number

end Reckoner
