import Mathlib
import Reckoner.Symbol.Function
import Reckoner.Proofs.Number.Order

/-!
# Square roots of doubles

The square root of a double that is not negative is a double nearest to the real root (`exists_sqrt`). It is computed
from a whole root with its remainder, which says where the real root lies between two whole numbers; as rational
numbers with that description come as near to the root as one likes (`exists_describes_sqrt`), what is said of
rounding them holds of the root. So the root of a square is exact (`toRat?_sqrt_sq`).
-/

namespace Reckoner

namespace Number

open Float.Model (UnpackedFloat Format totalExponent)
open Float.Model.UnpackedFloat

/-- Where the root of a number lies, from its whole root and the remainder. -/
def rootAccuracy (n : ℕ) : Accuracy :=
  let remainder := n - n.sqrt * n.sqrt
  if remainder = 0 then .exact else .inexact (if remainder ≤ n.sqrt then .lt else .gt)

/-- An open interval has rational numbers as near as one likes to each of its numbers. -/
lemma exists_rat_near {low high : ℚ} {y ε : ℝ} (hl : low < y) (hh : y < high) (hε : 0 < ε) :
    ∃ x : ℚ, low < x ∧ x < high ∧ |(x : ℝ) - y| < ε := by
  obtain ⟨x, hx, hxy⟩ := exists_rat_btwn (max_lt hl (sub_lt_self y hε))
  obtain ⟨hlow, hnear⟩ := max_lt_iff.mp hx
  refine ⟨x, by exact_mod_cast hlow, by exact_mod_cast hxy.trans hh, ?_⟩
  rw [abs_sub_comm, abs_of_pos (sub_pos.mpr hxy)]
  linarith

/-- The square of the middle between two whole numbers is not whole, so no root of a whole number lies there. -/
lemma sq_middle (k : ℕ) : ((k : ℝ) + 1 / 2) ^ 2 = (k ^ 2 + k : ℕ) + 1 / 4 := by
  push_cast
  ring

lemma sqrt_lt_middle {n k : ℕ} (h : n ≤ k ^ 2 + k) : √n < ((k + 1 / 2 : ℚ) : ℝ) := by
  have hle : (n : ℝ) ≤ (k ^ 2 + k : ℕ) := by exact_mod_cast h
  push_cast
  rw [Real.sqrt_lt' (by positivity), sq_middle]
  linarith

lemma middle_lt_sqrt {n k : ℕ} (h : k ^ 2 + k < n) : ((k + 1 / 2 : ℚ) : ℝ) < √n := by
  have hle : ((k ^ 2 + k : ℕ) : ℝ) + 1 ≤ n := by exact_mod_cast h
  push_cast
  rw [Real.lt_sqrt (by positivity), sq_middle]
  linarith

/-- The remainder tells on which side of the middle the root lies. -/
theorem exists_describes_sqrt (n : ℕ) {ε : ℝ} (hε : 0 < ε) :
    ∃ x : ℚ, Describes n.sqrt x (rootAccuracy n) ∧ |(x : ℝ) - √n| < ε := by
  have hle := n.sqrt_le'
  have hsq : n.sqrt * n.sqrt = n.sqrt ^ 2 := (sq _).symm
  rw [rootAccuracy, hsq]
  split
  · next hz =>
    have hn : n = n.sqrt ^ 2 := by omega
    have hroot : √(n : ℝ) = n.sqrt := by
      rw [Real.sqrt_eq_iff_eq_sq (by positivity) (by positivity)]
      exact_mod_cast hn
    refine ⟨n.sqrt, rfl, ?_⟩
    rw [hroot, Rat.cast_natCast, sub_self, abs_zero]
    exact hε
  · split
    · next hz hr =>
      have hlow : ((n.sqrt : ℚ) : ℝ) < √n := by
        rw [Rat.cast_natCast, Real.lt_sqrt (by positivity)]
        exact_mod_cast (show n.sqrt ^ 2 < n by omega)
      have hhigh := @sqrt_lt_middle n n.sqrt (by omega)
      obtain ⟨x, hx, hx', hnear⟩ := exists_rat_near hlow hhigh hε
      exact ⟨x, ⟨hx, hx'⟩, hnear⟩
    · next hz hr =>
      have hhigh : √n < ((n.sqrt + 1 : ℚ) : ℝ) := by exact_mod_cast Real.real_sqrt_lt_nat_sqrt_succ
      have hlow := @middle_lt_sqrt n n.sqrt (by omega)
      obtain ⟨x, hx, hx', hnear⟩ := exists_rat_near hlow hhigh hε
      exact ⟨x, ⟨hx, hx'⟩, hnear⟩

/-- The whole root is taken with enough digits. -/
lemma exists_sqrtCore {m : ℕ} (e : ℤ) (hm : 0 < m) :
    ∃ (n : ℕ) (t : ℤ), sqrtCore .binary64 m e = (n.sqrt, t, rootAccuracy n) ∧ 0 < n ∧ Ample n.sqrt t ∧
      (n : ℚ) * (2 ^ t) ^ 2 = m * 2 ^ e := by
  have htarget : Format.binary64.targetExponent ((totalExponent m e + 1).ediv 2) =
      max (((m.log2 : ℤ) + e + 2) / 2 - 53) (-1074) := by
    change max (((m.log2 : ℤ) + 1 + e + 1) / 2 - 53) (-1074) = _
    congr 3
    omega
  generalize ht : min (e / 2) (max (((m.log2 : ℤ) + e + 2) / 2 - 53) (-1074)) = t
  obtain ⟨k, hk⟩ := Int.eq_ofNat_of_zero_le (show 0 ≤ e - 2 * t by omega)
  have hn : 0 < m * 2 ^ k := Nat.mul_pos hm (Nat.two_pow_pos k)
  refine ⟨m * 2 ^ k, t, ?_, hn, ?_, ?_⟩
  · rw [sqrtCore, htarget]
    simp only [show e.ediv 2 = e / 2 from rfl, ht, hk, Int.toNat_natCast, Nat.shiftLeft_eq]
    rfl
  · by_cases hlow : t ≤ -1074
    · exact .inr hlow
    · apply ample_of_le
      left
      have hlog : 104 ≤ m.log2 + k := by omega
      rw [Nat.le_sqrt']
      calc (2 ^ 52) ^ 2 ≤ 2 ^ (m.log2 + k) := by
            rw [← pow_mul]
            exact Nat.pow_le_pow_right (by norm_num) hlog
        _ = 2 ^ m.log2 * 2 ^ k := pow_add ..
        _ ≤ m * 2 ^ k := Nat.mul_le_mul_right _ (Nat.log2_self_le hm.ne')
  · have he : e = (k : ℤ) + (t + t) := by omega
    rw [he, ← two_pow_mul_zpow, zpow_add₀ (by norm_num)]
    push_cast
    ring

section Nearest

variable {n : ℕ} {t : ℤ} {s : ℚ}

lemma sqrt_scaled (n : ℕ) (t : ℤ) : √(((n : ℚ) * (2 ^ t) ^ 2 : ℚ) : ℝ) = √n * 2 ^ t := by
  push_cast
  rw [Real.sqrt_mul (by positivity), Real.sqrt_sq (by positivity)]

/-- A number near the root is near it in every place. -/
lemma abs_scaled_sub (x : ℚ) (y : ℝ) (t : ℤ) : |((x * 2 ^ t : ℚ) : ℝ) - y * 2 ^ t| = |(x : ℝ) - y| * 2 ^ t := by
  push_cast
  rw [← sub_mul, abs_mul, abs_of_pos (zpow_pos (by norm_num) t : (0 : ℝ) < 2 ^ t)]

/-- What all numbers with the description of a root are rounded to is nearest to the root. -/
lemma nearest_of_describes (hround : ∀ x, Describes n.sqrt x (rootAccuracy n) → rounded (x * 2 ^ t) = s) {d : ℚ}
    (hd : IsDouble d) : |(s : ℝ) - √n * 2 ^ t| ≤ |(d : ℝ) - √n * 2 ^ t| := by
  have hunit : (0 : ℝ) < 2 ^ t := zpow_pos (by norm_num) t
  -- The root is the limit of such numbers, and `s` is nearest to each of them.
  apply le_of_forall_pos_le_add
  intro ε hε
  obtain ⟨x, hx, hnear⟩ := exists_describes_sqrt n (show 0 < ε / 2 / 2 ^ t by positivity)
  have hdist := abs_scaled_sub x √n t
  have hsmall : |((x * 2 ^ t : ℚ) : ℝ) - √n * 2 ^ t| < ε / 2 := by
    rwa [hdist, ← lt_div_iff₀ hunit]
  have hle : |(s : ℝ) - (x * 2 ^ t : ℚ)| ≤ |(d : ℝ) - (x * 2 ^ t : ℚ)| := by
    have := abs_rounded_sub_le hd (r := x * 2 ^ t)
    rw [hround x hx] at this
    exact_mod_cast this
  have hs := abs_sub_le (s : ℝ) (x * 2 ^ t : ℚ) (√n * 2 ^ t)
  have hd' := abs_sub_le (d : ℝ) (√n * 2 ^ t) (x * 2 ^ t : ℚ)
  rw [abs_sub_comm (√n * 2 ^ t) _] at hd'
  linarith

/-- The root of a double is far below the largest one. -/
lemma abs_describes_le {x : ℚ} (hn : 0 < n) (hlt : (n : ℚ) * (2 ^ t) ^ 2 < 2 ^ 1024)
    (hx : Describes n.sqrt x (rootAccuracy n)) : |x * 2 ^ t| ≤ 2 ^ 1022 := by
  have hunit := two_zpow_pos t
  obtain ⟨hl, hu⟩ := hx.bounds
  have hone : (1 : ℚ) ≤ n.sqrt := by exact_mod_cast Nat.sqrt_pos.mpr hn
  have hsq : (n.sqrt : ℚ) ^ 2 ≤ n := by exact_mod_cast n.sqrt_le'
  have hroot : (n.sqrt : ℚ) * 2 ^ t < 2 ^ 512 := by
    apply lt_of_pow_lt_pow_left₀ 2 (by positivity)
    calc ((n.sqrt : ℚ) * 2 ^ t) ^ 2 = n.sqrt ^ 2 * (2 ^ t) ^ 2 := mul_pow ..
      _ ≤ n * (2 ^ t) ^ 2 := mul_le_mul_of_nonneg_right hsq (by positivity)
      _ < 2 ^ 1024 := hlt
      _ = (2 ^ 512) ^ 2 := pow_mul 2 512 2
  rw [abs_of_nonneg (mul_nonneg (by linarith) hunit.le)]
  calc x * 2 ^ t ≤ 2 * n.sqrt * 2 ^ t := mul_le_mul_of_nonneg_right (by linarith) hunit.le
    _ = 2 * (n.sqrt * 2 ^ t) := mul_assoc ..
    _ ≤ 2 * 2 ^ 512 := mul_le_mul_of_nonneg_left hroot.le (by norm_num)
    _ = 2 ^ 513 := (pow_succ' 2 512).symm
    _ ≤ 2 ^ 1022 := pow_le_pow_right₀ (by norm_num) (by norm_num)

end Nearest

variable {x : Float} {a : ℚ}

/-- The square root is a double that no other double is nearer to the real root than. -/
theorem exists_sqrt (ha : toRat? x = some a) (hnonneg : 0 ≤ a) :
    ∃ s, toRat? x.sqrt = some s ∧ 0 ≤ s ∧ ∀ d, IsDouble d → |(s : ℝ) - √a| ≤ |(d : ℝ) - √a| := by
  have hlt := (abs_lt.mp (isDouble_of_toRat? ha).abs_lt).2
  have hsqrt : toRat? x.sqrt = exactly? (Float.Model.pack (UnpackedFloat.sqrt .binary64 x.toModel.unpack)).unpack :=
    toRat?_eq _
  rw [hsqrt]
  rw [toRat?_eq] at ha
  obtain ⟨sign, hu, rfl⟩ | ⟨sign, m, e, hm, hu, rfl⟩ := cases_of_exactly? ha
  · have hc : Canonical (.zero sign) := trivial
    refine ⟨0, ?_, le_rfl, ?_⟩
    · rw [hu, UnpackedFloat.sqrt, unpack_pack hc, exactly?_zero]
    · intro d _
      simp
  · cases sign with
    | negative => exact absurd hnonneg (not_le.mpr (neg_neg_of_pos (size_pos e hm)))
    | positive =>
      obtain ⟨n, t, hcore, hn, hample, hvalue⟩ := exists_sqrtCore e hm
      rw [signed, ← hvalue] at hlt ⊢
      have hresult {y : ℚ} (hy : Describes n.sqrt y (rootAccuracy n)) :
          exactly? (Float.Model.pack (UnpackedFloat.sqrt .binary64 x.toModel.unpack)).unpack =
            some (rounded (y * 2 ^ t)) := by
        have hpos : 0 < y := by
          have : (1 : ℚ) ≤ n.sqrt := by exact_mod_cast Nat.sqrt_pos.mpr hn
          linarith [hy.bounds.1]
        rw [hu, UnpackedFloat.sqrt, hcore]
        simp only
        rw [exactly?_roundWithAccuracy .positive hy hpos hample]
        exact round?_of_abs_le (abs_describes_le hn hlt hy)
      obtain ⟨y, hy, -⟩ := exists_describes_sqrt n one_pos
      refine ⟨_, hresult hy, rounded_nonneg ?_, ?_⟩
      · exact mul_nonneg (n.sqrt.cast_nonneg.trans hy.bounds.1) (two_zpow_pos t).le
      · intro d hd
        rw [sqrt_scaled]
        apply nearest_of_describes _ hd
        intro z hz
        exact Option.some_inj.mp ((hresult hz).symm.trans (hresult hy))

/-- The root of a square is exact. -/
theorem toRat?_sqrt_sq {d : ℚ} (ha : toRat? x = some (d ^ 2)) (hd : IsDouble d) (hnonneg : 0 ≤ d) :
    toRat? x.sqrt = some d := by
  obtain ⟨s, hs, -, hnear⟩ := exists_sqrt ha (sq_nonneg d)
  have hroot : √((d ^ 2 : ℚ) : ℝ) = d := by
    push_cast
    exact Real.sqrt_sq (by exact_mod_cast hnonneg)
  have hzero := hnear d hd
  rw [hroot, sub_self, abs_zero, abs_nonpos_iff, sub_eq_zero, Rat.cast_inj] at hzero
  rw [hs, hzero]

/-- No root is larger than 2^512. -/
theorem sqrt_le {s : ℚ} (ha : toRat? x = some a) (hnonneg : 0 ≤ a) (hs : toRat? x.sqrt = some s) : s ≤ 2 ^ 512 := by
  obtain ⟨s', hs', -, hnear⟩ := exists_sqrt ha hnonneg
  obtain rfl : s' = s := Option.some_inj.mp (hs'.symm.trans hs)
  have hlt : √(a : ℝ) < 2 ^ 512 := by
    have hreal := Rat.cast_lt (K := ℝ).mpr (abs_lt.mp (isDouble_of_toRat? ha).abs_lt).2
    rw [Rat.cast_pow, Rat.cast_ofNat] at hreal
    rw [Real.sqrt_lt' (by positivity), ← pow_mul]
    exact hreal
  have hle := hnear _ (isDouble_two_pow (show 512 ≤ 971 by norm_num))
  push_cast at hle
  rw [abs_of_pos (sub_pos.mpr hlt)] at hle
  have hreal := (sub_le_sub_iff_right _).mp ((le_abs_self _).trans hle)
  exact_mod_cast hreal

end Number

namespace Function

variable {x : Float} {a : ℚ}

/-- A number that is not negative has a root. -/
theorem sqrt_apply (ha : Number.toRat? x = some a) (hnonneg : 0 ≤ a) : sqrt.apply x = .ok x.sqrt := by
  obtain ⟨s, hs, -, -⟩ := Number.exists_sqrt ha hnonneg
  obtain ⟨hnan, hinf⟩ := Number.not_isNaN_of_toRat? hs
  have hfinite := (Number.isFinite_iff _).mpr ⟨s, hs⟩
  have hcompute : sqrt.compute x = .ok x.sqrt := by
    rw [compute, judge, hnan, hinf]
    simp
  rw [apply, hcompute]
  exact if_pos hfinite

end Function

end Reckoner
