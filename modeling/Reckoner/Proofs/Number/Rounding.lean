import Mathlib
import Reckoner.Number.Exact

/-!
# Rounding to the doubles

The doubles around a rational `r` are the multiples of one power of two, whose exponent is the `place` of `r`:
52 binary places below its leading digit, but never below −1074. `rounded` takes the nearest multiple, a
half going to the even one, and `round?` also knows that there is no double beyond 2^1024.

Everything follows from one characterisation of rounding to whole numbers (`roundHalfEven_eq_iff`): what is a
double stays as it is (`round?_of_isDouble`), the result is a double (`isDouble_of_round?`), and no double
is nearer to `r` (`abs_rounded_sub_le`).
-/

namespace Reckoner

namespace Number

lemma roundHalfEven_cases (r : ℚ) :
    |r - roundHalfEven r| < 1 / 2 ∨ |r - roundHalfEven r| = 1 / 2 ∧ Even (roundHalfEven r) := by
  have hlow := Int.floor_le r
  have hhigh := Int.lt_floor_add_one r
  have hfloor : Rat.floor r = ⌊r⌋ := rfl
  simp only [roundHalfEven, hfloor]
  split
  · next h =>
    left
    rw [abs_lt]
    constructor <;> linarith
  · next h =>
    split
    · next h' =>
      left
      push_cast
      rw [abs_lt]
      constructor <;> linarith
    · next h' =>
      right
      have hgap : r - ⌊r⌋ = 1 / 2 := le_antisymm (not_lt.mp h') (not_lt.mp h)
      split
      · next he =>
        refine ⟨?_, Int.even_iff.mpr he⟩
        rw [hgap]
        norm_num
      · next ho =>
        refine ⟨?_, ?_⟩
        · push_cast
          rw [← sub_sub, hgap]
          norm_num
        · rw [Int.even_add_one, Int.even_iff]
          exact ho

/-- Whole numbers at most one apart: the same, or neighbours of which only one is even. -/
lemma eq_of_abs_le_one {m n : ℤ} (h : |m - n| ≤ 1) (hm : Even m) (hn : Even n) : m = n := by
  obtain ⟨a, rfl⟩ := hm
  obtain ⟨b, rfl⟩ := hn
  rw [abs_le] at h
  omega

/-- Rounding gives the whole number nearer than one half, or the even one at one half. -/
theorem roundHalfEven_eq_iff {r : ℚ} {n : ℤ} :
    roundHalfEven r = n ↔ |r - n| < 1 / 2 ∨ |r - n| = 1 / 2 ∧ Even n := by
  constructor
  · rintro rfl
    exact roundHalfEven_cases r
  · intro h
    have hr := roundHalfEven_cases r
    generalize roundHalfEven r = m at hr
    have htri : |(m : ℚ) - n| ≤ |r - m| + |r - n| := by
      have := abs_sub_le (m : ℚ) r n
      rwa [abs_sub_comm (m : ℚ) r] at this
    have near (hlt : |(m : ℚ) - n| < 1) : m = n := by
      have hint : |m - n| < 1 := by exact_mod_cast hlt
      rw [Int.abs_lt_one_iff] at hint
      omega
    obtain hm | ⟨hm, hme⟩ := hr
    · apply near
      obtain hn | ⟨hn, -⟩ := h <;> linarith
    · obtain hn | ⟨hn, hne⟩ := h
      · apply near
        linarith
      · refine eq_of_abs_le_one ?_ hme hne
        have : |(m : ℚ) - n| ≤ 1 := by linarith
        exact_mod_cast this

lemma abs_sub_roundHalfEven (r : ℚ) : |r - roundHalfEven r| ≤ 1 / 2 := by
  obtain h | ⟨h, -⟩ := roundHalfEven_cases r
  · exact h.le
  · exact h.le

lemma roundHalfEven_intCast (n : ℤ) : roundHalfEven n = n :=
  roundHalfEven_eq_iff.mpr (.inl (by norm_num))

lemma roundHalfEven_neg (r : ℚ) : roundHalfEven (-r) = -roundHalfEven r := by
  rw [roundHalfEven_eq_iff]
  have habs : |-r - ((-roundHalfEven r : ℤ) : ℚ)| = |r - roundHalfEven r| := by
    rw [← abs_neg]
    congr 1
    push_cast
    ring
  rw [habs, even_neg]
  exact roundHalfEven_cases r

/-- No whole number is nearer. -/
lemma abs_roundHalfEven_sub_le (r : ℚ) (j : ℤ) : |(roundHalfEven r : ℚ) - r| ≤ |(j : ℚ) - r| := by
  by_cases h : roundHalfEven r = j
  · rw [h]
  · have hone : (1 : ℚ) ≤ |(roundHalfEven r : ℚ) - j| := by
      have := Int.one_le_abs (sub_ne_zero.mpr h)
      exact_mod_cast this
    have htri := abs_sub_le (roundHalfEven r : ℚ) r j
    have hhalf := abs_sub_roundHalfEven r
    rw [abs_sub_comm r] at hhalf
    rw [abs_sub_comm (j : ℚ)]
    linarith

/-- Away from the halves the nearest whole number is the only one. -/
lemma abs_roundHalfEven_sub_lt {r : ℚ} (hr : |r - roundHalfEven r| ≠ 1 / 2) {j : ℤ}
    (hj : j ≠ roundHalfEven r) : |(roundHalfEven r : ℚ) - r| < |(j : ℚ) - r| := by
  have hone : (1 : ℚ) ≤ |(roundHalfEven r : ℚ) - j| := by
    have := Int.one_le_abs (sub_ne_zero.mpr hj.symm)
    exact_mod_cast this
  have htri := abs_sub_le (roundHalfEven r : ℚ) r j
  have hhalf := lt_of_le_of_ne (abs_sub_roundHalfEven r) hr
  rw [abs_sub_comm r] at hhalf
  rw [abs_sub_comm (j : ℚ)]
  linarith

/-- The exponent of the last binary place that a double near `r` has. -/
def place (r : ℚ) : ℤ :=
  max (Int.log 2 |r| - 52) (-1074)

/-- The distance between neighbouring doubles near `r`. -/
def spacing (r : ℚ) : ℚ :=
  2 ^ place r

/-- The multiple of the spacing nearest to `r`, a half going to the even one. -/
def rounded (r : ℚ) : ℚ :=
  roundHalfEven (r / spacing r) * spacing r

/-- The double nearest to `r`, unless it would lie beyond all finite doubles. -/
def round? (r : ℚ) : Option ℚ :=
  if |rounded r| < 2 ^ 1024 then some (rounded r) else none

/-- The rational numbers that are finite doubles. -/
def IsDouble (r : ℚ) : Prop :=
  ∃ n e : ℤ, r = n * 2 ^ e ∧ |n| < 2 ^ 53 ∧ -1074 ≤ e ∧ e ≤ 971

lemma two_zpow_pos (e : ℤ) : (0 : ℚ) < 2 ^ e :=
  zpow_pos (by norm_num) e

lemma two_pow_mul_zpow (n : ℕ) (e : ℤ) : (2 : ℚ) ^ n * 2 ^ e = 2 ^ (n + e) := by
  rw [zpow_add₀ (by norm_num), zpow_natCast]

lemma spacing_pos (r : ℚ) : 0 < spacing r :=
  two_zpow_pos _

@[simp] lemma spacing_neg (r : ℚ) : spacing (-r) = spacing r := by
  rw [spacing, spacing, place, place, abs_neg]

@[simp] lemma rounded_neg (r : ℚ) : rounded (-r) = -rounded r := by
  rw [rounded, rounded, spacing_neg, neg_div, roundHalfEven_neg]
  push_cast
  ring

lemma round?_neg (r : ℚ) : round? (-r) = (round? r).map Neg.neg := by
  rw [round?, round?, rounded_neg, abs_neg]
  split <;> rfl

@[simp] lemma rounded_zero : rounded 0 = 0 := by
  have h : roundHalfEven 0 = 0 := roundHalfEven_intCast 0
  rw [rounded, zero_div, h]
  norm_num

@[simp] lemma round?_zero : round? 0 = some 0 := by
  rw [round?, rounded_zero, if_pos (by norm_num)]

lemma round?_eq_some {r s : ℚ} (h : round? r = some s) : s = rounded r ∧ |s| < 2 ^ 1024 := by
  rw [round?] at h
  split at h
  · next hlt =>
    cases h
    exact ⟨rfl, hlt⟩
  · cases h

/-- The leading binary digit of `r` has the exponent `k`. -/
lemma log_eq_iff {r : ℚ} (hr : 0 < r) {k : ℤ} :
    Int.log 2 r = k ↔ (2 : ℚ) ^ k ≤ r ∧ r < 2 ^ (k + 1) := by
  have hle := Int.zpow_log_le_self (b := 2) (by norm_num) hr
  have hlt := Int.lt_zpow_succ_log_self (b := 2) (by norm_num) r
  rw [Nat.cast_ofNat] at hle hlt
  constructor
  · rintro rfl
    exact ⟨hle, hlt⟩
  · rintro ⟨hle', hlt'⟩
    have h₁ := (zpow_lt_zpow_iff_right₀ (by norm_num : (1 : ℚ) < 2)).mp (hle.trans_lt hlt')
    have h₂ := (zpow_lt_zpow_iff_right₀ (by norm_num : (1 : ℚ) < 2)).mp (hle'.trans_lt hlt)
    omega

lemma zpow_log_le {r : ℚ} (hr : r ≠ 0) : (2 : ℚ) ^ Int.log 2 |r| ≤ |r| := by
  exact ((log_eq_iff (abs_pos.mpr hr)).mp rfl).1

lemma lt_zpow_log {r : ℚ} (hr : r ≠ 0) : |r| < 2 ^ (Int.log 2 |r| + 1) := by
  exact ((log_eq_iff (abs_pos.mpr hr)).mp rfl).2

/-- Above the lowest place the leading digit is 52 places above the spacing. -/
lemma leading_le {r : ℚ} (hr : r ≠ 0) (h : place r = Int.log 2 |r| - 52) :
    2 ^ 52 * spacing r ≤ |r| := by
  rw [spacing, two_pow_mul_zpow, h]
  push_cast
  rw [add_sub_cancel]
  exact zpow_log_le hr

/-- In units of its spacing a number is below 2^53. -/
lemma abs_div_spacing_lt (r : ℚ) : |r / spacing r| < 2 ^ 53 := by
  by_cases hr : r = 0
  · rw [hr, zero_div, abs_zero]
    positivity
  rw [abs_div, abs_of_pos (spacing_pos r), div_lt_iff₀ (spacing_pos r)]
  calc |r| < 2 ^ (Int.log 2 |r| + 1) := lt_zpow_log hr
    _ ≤ 2 ^ ((53 : ℕ) + place r) := by
      apply zpow_le_zpow_right₀ (by norm_num)
      have : Int.log 2 |r| - 52 ≤ place r := le_max_left _ _
      omega
    _ = 2 ^ 53 * spacing r := (two_pow_mul_zpow 53 _).symm

lemma abs_roundHalfEven_le {x : ℚ} {n : ℕ} (h : |x| ≤ n) : |roundHalfEven x| ≤ n := by
  have hhalf := abs_sub_roundHalfEven x
  have hlt : |(roundHalfEven x : ℚ)| < n + 1 := by
    have := abs_sub_abs_le_abs_sub (roundHalfEven x : ℚ) x
    rw [abs_sub_comm] at this
    linarith
  have hint : |roundHalfEven x| < n + 1 := by exact_mod_cast hlt
  omega

/-- What is rounded has at most 53 binary digits, or is a power of two. -/
lemma abs_digits_le (r : ℚ) : |roundHalfEven (r / spacing r)| ≤ 2 ^ 53 := by
  have h := abs_roundHalfEven_le (x := r / spacing r) (n := 2 ^ 53)
    (by exact_mod_cast (abs_div_spacing_lt r).le)
  exact_mod_cast h

/-- A double of at least the size of a power of two is a multiple of the spacing there. -/
lemma exists_multiple {n e : ℤ} {r : ℚ} (he : place r ≤ e) :
    ∃ j : ℤ, (n : ℚ) * 2 ^ e = j * spacing r := by
  obtain ⟨k, hk⟩ := Int.eq_ofNat_of_zero_le (sub_nonneg.mpr he)
  refine ⟨n * 2 ^ k, ?_⟩
  have h : e = k + place r := by omega
  rw [h, zpow_add₀ (by norm_num)]
  push_cast
  rw [mul_assoc]
  rfl

/-- Fewer than 54 digits have none below the last place of their size. -/
lemma exists_multiple_self {n e : ℤ} (hn : |n| < 2 ^ 53) (hl : -1074 ≤ e) :
    ∃ j : ℤ, (n : ℚ) * 2 ^ e = j * spacing (n * 2 ^ e) := by
  by_cases hz : (n : ℚ) * 2 ^ e = 0
  · exact ⟨0, by rw [hz]; norm_num⟩
  · apply Number.exists_multiple
    have hlog := zpow_log_le hz
    rw [abs_mul, abs_of_pos (two_zpow_pos e)] at hlog
    have hn : |(n : ℚ)| < 2 ^ (53 : ℤ) := by exact_mod_cast hn
    have hlt : (2 : ℚ) ^ Int.log 2 |(n : ℚ) * 2 ^ e| < 2 ^ (53 + e) := by
      rw [abs_mul, abs_of_pos (two_zpow_pos e), zpow_add₀ (by norm_num)]
      exact hlog.trans_lt (mul_lt_mul_of_pos_right hn (two_zpow_pos e))
    have := (zpow_lt_zpow_iff_right₀ (by norm_num : (1 : ℚ) < 2)).mp hlt
    exact max_le (by omega) hl

lemma IsDouble.abs_lt {r : ℚ} (h : IsDouble r) : |r| < 2 ^ 1024 := by
  obtain ⟨n, e, rfl, hn, -, he⟩ := h
  rw [abs_mul, abs_of_pos (two_zpow_pos e)]
  have hn : |(n : ℚ)| < 2 ^ 53 := by exact_mod_cast hn
  calc |(n : ℚ)| * 2 ^ e < 2 ^ 53 * 2 ^ e := mul_lt_mul_of_pos_right hn (two_zpow_pos e)
    _ ≤ 2 ^ 53 * 2 ^ (971 : ℤ) := by
      apply mul_le_mul_of_nonneg_left _ (by positivity)
      exact zpow_le_zpow_right₀ (by norm_num) he
    _ = 2 ^ 1024 := two_pow_mul_zpow 53 971

/-- A multiple of the spacing is its own rounding. -/
lemma rounded_of_multiple {r : ℚ} {j : ℤ} (h : r = j * spacing r) : rounded r = r := by
  have hdiv : r / spacing r = j := by
    rw [div_eq_iff (spacing_pos r).ne', ← h]
  rw [rounded, hdiv, roundHalfEven_intCast, ← h]

/-- Fewer than 54 digits are their own rounding. -/
theorem rounded_digits {n e : ℤ} (hn : |n| < 2 ^ 53) (hl : -1074 ≤ e) :
    rounded (n * 2 ^ e) = n * 2 ^ e := by
  obtain ⟨j, hj⟩ := exists_multiple_self hn hl
  exact rounded_of_multiple hj

/-- A double is its own rounding. -/
theorem rounded_of_isDouble {r : ℚ} (h : IsDouble r) : rounded r = r := by
  obtain ⟨n, e, rfl, hn, hl, -⟩ := h
  exact rounded_digits hn hl

theorem round?_of_isDouble {r : ℚ} (h : IsDouble r) : round? r = some r := by
  rw [round?, rounded_of_isDouble h, if_pos h.abs_lt]

lemma isDouble_two_pow {n : ℕ} (hn : n ≤ 971) : IsDouble (2 ^ n) :=
  ⟨1, n, by rw [Int.cast_one, one_mul, zpow_natCast], by norm_num, by omega, by omega⟩

/-- Doubling a double only raises its exponent. -/
lemma rounded_two_mul {r : ℚ} (h : IsDouble r) : rounded (2 * r) = 2 * r := by
  obtain ⟨n, e, rfl, hn, hl, -⟩ := h
  have hdouble : (2 : ℚ) * (n * 2 ^ e) = n * 2 ^ (e + 1) := by
    rw [zpow_add_one₀ (by norm_num)]
    ring
  rw [hdouble]
  exact rounded_digits hn (by omega)

/-- A number below 2^53 in size whose last place is high enough is a double. -/
lemma isDouble_of_digits {n e : ℤ} (hn : |n| ≤ 2 ^ 53) (hl : -1074 ≤ e) (he : e ≤ 970) :
    IsDouble (n * 2 ^ e) := by
  obtain hn | hn := hn.lt_or_eq
  · exact ⟨n, e, rfl, hn, hl, by omega⟩
  · have heven : n = n / 2 * 2 := by
      obtain h | h := eq_or_eq_neg_of_abs_eq hn <;> rw [h] <;> norm_num
    refine ⟨n / 2, e + 1, ?_, ?_, by omega, by omega⟩
    · rw [zpow_add_one₀ (by norm_num)]
      have : (n : ℚ) = ((n / 2 : ℤ) : ℚ) * 2 := by exact_mod_cast heven
      rw [this]
      ring_nf
    · obtain h | h := eq_or_eq_neg_of_abs_eq hn <;> rw [h] <;> norm_num

/-- The spacing of a number that is rounded to a finite double. -/
lemma place_le {r : ℚ} (h : |rounded r| < 2 ^ 1024) : place r ≤ 971 := by
  by_contra hp
  have hp : 972 ≤ place r := by omega
  have hr : r ≠ 0 := by
    rintro rfl
    rw [place, abs_zero, Int.log_zero_right] at hp
    omega
  have hlog : place r = Int.log 2 |r| - 52 := by
    rw [place] at hp ⊢
    omega
  -- The number has its leading digit at the 53rd place of the spacing, and so has its rounding.
  have hge : (2 : ℚ) ^ 52 ≤ |r / spacing r| := by
    rw [abs_div, abs_of_pos (spacing_pos r), le_div_iff₀ (spacing_pos r)]
    exact leading_le hr hlog
  have hround : (2 : ℚ) ^ 52 ≤ |(roundHalfEven (r / spacing r) : ℚ)| := by
    have hhalf := abs_sub_roundHalfEven (r / spacing r)
    have htri := abs_sub_abs_le_abs_sub (r / spacing r) (roundHalfEven (r / spacing r) : ℚ)
    have hlt : (2 : ℚ) ^ 52 - 1 < |(roundHalfEven (r / spacing r) : ℚ)| := by linarith
    have hint : (2 : ℤ) ^ 52 - 1 < |roundHalfEven (r / spacing r)| := by exact_mod_cast hlt
    have : (2 : ℤ) ^ 52 ≤ |roundHalfEven (r / spacing r)| := by omega
    exact_mod_cast this
  have hsp : (2 : ℚ) ^ (972 : ℤ) ≤ spacing r := zpow_le_zpow_right₀ (by norm_num) hp
  have : (2 : ℚ) ^ 1024 ≤ |rounded r| := by
    rw [rounded, abs_mul, abs_of_pos (spacing_pos r)]
    calc (2 : ℚ) ^ 1024 = 2 ^ 52 * 2 ^ (972 : ℤ) := (two_pow_mul_zpow 52 972).symm
      _ ≤ |(roundHalfEven (r / spacing r) : ℚ)| * spacing r := by gcongr
  exact absurd h (not_lt.mpr this)

/-- What is rounded to a finite double is one. -/
theorem isDouble_of_round? {r s : ℚ} (h : round? r = some s) : IsDouble s := by
  obtain ⟨rfl, hlt⟩ := round?_eq_some h
  have hp := place_le hlt
  have hn := abs_digits_le r
  have hmin : -1074 ≤ place r := le_max_right _ _
  obtain hp | hp := hp.lt_or_eq
  · exact isDouble_of_digits hn hmin (by omega)
  · obtain hn | hn := hn.lt_or_eq
    · exact ⟨_, _, rfl, hn, hmin, hp.le⟩
    · -- At the highest place all 53 digits would reach the bound.
      rw [rounded, abs_mul, abs_of_pos (spacing_pos r)] at hlt
      have hnq : |(roundHalfEven (r / spacing r) : ℚ)| = 2 ^ 53 := by exact_mod_cast hn
      rw [hnq, spacing, hp] at hlt
      exact absurd hlt (two_pow_mul_zpow 53 971).not_lt

/-- A double whose places lie below the spacing of `r` is smaller than the leading digit of `r`. -/
lemma abs_lt_of_place {n e : ℤ} {r : ℚ} (hr : r ≠ 0) (hn : |n| < 2 ^ 53) (hl : -1074 ≤ e)
    (he : e < place r) :
    |(n : ℚ) * 2 ^ e| < 2 ^ 52 * spacing r ∧ 2 ^ 52 * spacing r ≤ |r| := by
  have hlog : place r = Int.log 2 |r| - 52 := by
    rw [place] at he ⊢
    omega
  constructor
  · rw [abs_mul, abs_of_pos (two_zpow_pos e)]
    have hn : |(n : ℚ)| < 2 ^ 53 := by exact_mod_cast hn
    calc |(n : ℚ)| * 2 ^ e < 2 ^ 53 * 2 ^ e := mul_lt_mul_of_pos_right hn (two_zpow_pos e)
      _ = 2 ^ 52 * 2 ^ (e + 1) := by
        rw [zpow_add_one₀ (by norm_num)]
        ring
      _ ≤ 2 ^ 52 * spacing r := by
        apply mul_le_mul_of_nonneg_left _ (by positivity)
        exact zpow_le_zpow_right₀ (by norm_num) (by omega)
  · exact leading_le hr hlog

variable {r t : ℚ}

lemma abs_multiple_sub (r : ℚ) (x : ℚ) :
    |x * spacing r - r| = |x - r / spacing r| * spacing r := by
  have hs := spacing_pos r
  rw [← abs_of_pos hs, ← abs_mul, abs_of_pos hs]
  congr 1
  field_simp

lemma abs_rounded_sub_le_multiple (r : ℚ) (j : ℤ) : |rounded r - r| ≤ |j * spacing r - r| := by
  rw [rounded, abs_multiple_sub, abs_multiple_sub]
  exact mul_le_mul_of_nonneg_right (abs_roundHalfEven_sub_le _ j) (spacing_pos r).le

/-- A double below the leading digit of `r` is farther from `r` than that digit is, which is a multiple
of the spacing. -/
lemma exists_nearer {n e : ℤ} (hr : r ≠ 0) (hn : |n| < 2 ^ 53) (hl : -1074 ≤ e)
    (he : e < place r) : ∃ j : ℤ, |(j : ℚ) * spacing r - r| < |(n : ℚ) * 2 ^ e - r| := by
  obtain ⟨hlt, hle⟩ := abs_lt_of_place hr hn hl he
  obtain hr | hr := le_total 0 r
  · refine ⟨2 ^ 52, ?_⟩
    rw [abs_of_nonneg hr] at hle
    have := (abs_lt.mp hlt).2
    push_cast
    rw [abs_of_nonpos (by linarith), abs_of_neg (by linarith)]
    linarith
  · refine ⟨-2 ^ 52, ?_⟩
    rw [abs_of_nonpos hr] at hle
    have := (abs_lt.mp hlt).1
    push_cast
    rw [abs_of_nonneg (by linarith), abs_of_pos (by linarith)]
    linarith

/-- No double is nearer to a number than its rounding. -/
theorem abs_rounded_sub_le (ht : IsDouble t) : |rounded r - r| ≤ |t - r| := by
  by_cases hr : r = 0
  · rw [hr, rounded_zero, sub_zero, abs_zero]
    exact abs_nonneg _
  obtain ⟨n, e, rfl, hn, hl, -⟩ := ht
  obtain he | he := le_or_gt (place r) e
  · obtain ⟨j, hj⟩ := exists_multiple he (n := n)
    rw [hj]
    exact abs_rounded_sub_le_multiple r j
  · obtain ⟨j, hj⟩ := exists_nearer hr hn hl he
    exact (abs_rounded_sub_le_multiple r j).trans hj.le

/-- Well inside the doubles rounding gives one. -/
lemma round?_of_abs_le (h : |r| ≤ 2 ^ 1022) : round? r = some (rounded r) := by
  have hzero : IsDouble 0 := ⟨0, 0, by norm_num, by norm_num, by norm_num, by norm_num⟩
  have hnear := abs_rounded_sub_le hzero (r := r)
  rw [zero_sub, abs_neg] at hnear
  have htri := abs_sub_abs_le_abs_sub (rounded r) r
  have htwice : |rounded r| ≤ 2 * |r| := by linarith
  rw [round?, if_pos]
  calc |rounded r| ≤ 2 * |r| := htwice
    _ ≤ 2 * 2 ^ 1022 := mul_le_mul_of_nonneg_left h (by norm_num)
    _ = 2 ^ 1023 := (pow_succ' 2 1022).symm
    _ < 2 ^ 1024 := pow_lt_pow_right₀ (by norm_num) (by norm_num)

/-- If a number is not halfway between two multiples of the spacing, every other double is farther away
than its rounding. -/
theorem abs_rounded_sub_lt
    (hr : |r / spacing r - roundHalfEven (r / spacing r)| ≠ 1 / 2) (ht : IsDouble t)
    (hne : t ≠ rounded r) : |rounded r - r| < |t - r| := by
  by_cases hr0 : r = 0
  · rw [hr0, rounded_zero] at hne ⊢
    rw [sub_zero, sub_zero, abs_zero]
    exact abs_pos.mpr hne
  obtain ⟨n, e, rfl, hn, hl, -⟩ := ht
  obtain he | he := le_or_gt (place r) e
  · obtain ⟨j, hj⟩ := exists_multiple he (n := n)
    rw [hj] at hne ⊢
    rw [rounded, abs_multiple_sub, abs_multiple_sub]
    apply mul_lt_mul_of_pos_right _ (spacing_pos r)
    apply abs_roundHalfEven_sub_lt hr
    rintro rfl
    exact hne rfl
  · obtain ⟨j, hj⟩ := exists_nearer hr0 hn hl he
    exact (abs_rounded_sub_le_multiple r j).trans_lt hj

/-- Twice a number halfway between two whole ones is odd. -/
lemma exists_odd_of_halfway {x : ℚ} (h : |x - roundHalfEven x| = 1 / 2) :
    ∃ k : ℤ, 2 * x = k ∧ Odd k := by
  obtain h | h := eq_or_eq_neg_of_abs_eq h
  · refine ⟨2 * roundHalfEven x + 1, ?_, odd_two_mul_add_one _⟩
    push_cast
    linarith
  · refine ⟨2 * roundHalfEven x - 1, ?_, ⟨roundHalfEven x - 1, by ring⟩⟩
    push_cast
    linarith

/-- An odd number that divides another one up to powers of two divides it. -/
lemma dvd_of_eq_mul_zpow {k p q g : ℤ} (hk : Odd k) (h : 2 * (p : ℚ) = k * q * 2 ^ g) : k ∣ p := by
  have hcop (i : ℕ) : IsCoprime k (2 ^ i) :=
    IsCoprime.pow_right (Int.isCoprime_two_right.mpr hk)
  obtain ⟨i, rfl | rfl⟩ := Int.eq_nat_or_neg g
  · rw [zpow_natCast] at h
    have hz : p * 2 ^ 1 = k * (q * 2 ^ i) := by
      have : (p * 2 ^ 1 : ℚ) = k * (q * 2 ^ i) := by linarith
      exact_mod_cast this
    exact (hcop 1).dvd_of_dvd_mul_right ⟨_, hz⟩
  · rw [zpow_neg, zpow_natCast, ← div_eq_mul_inv, eq_div_iff (by positivity)] at h
    have hz : p * 2 ^ (i + 1) = k * q := by
      have : (p * 2 ^ (i + 1) : ℚ) = k * q := by
        rw [pow_succ]
        linarith
      exact_mod_cast this
    exact (hcop (i + 1)).dvd_of_dvd_mul_right ⟨_, hz⟩

/-- The last place of a quotient of whole numbers up to 2^53 is above the lowest one. -/
lemma place_quotient {p q : ℤ} (hp : p ≠ 0) (hq : q ≠ 0) (hq' : |q| ≤ 2 ^ 53) :
    place (p / q) = Int.log 2 |(p / q : ℚ)| - 52 := by
  have hqq : (q : ℚ) ≠ 0 := by exact_mod_cast hq
  have hpq : (p : ℚ) ≠ 0 := by exact_mod_cast hp
  have hsize : (2 : ℚ) ^ (-53 : ℤ) ≤ |(p / q : ℚ)| := by
    have h₁ : (1 : ℚ) ≤ |(p : ℚ)| := by exact_mod_cast Int.one_le_abs hp
    have h₂ : |(q : ℚ)| ≤ 2 ^ 53 := by exact_mod_cast hq'
    rw [abs_div, le_div_iff₀ (abs_pos.mpr hqq)]
    calc (2 : ℚ) ^ (-53 : ℤ) * |(q : ℚ)| ≤ 2 ^ (-53 : ℤ) * 2 ^ 53 := by gcongr
      _ = 1 := by norm_num
      _ ≤ |(p : ℚ)| := h₁
  have hlt := hsize.trans_lt (lt_zpow_log (div_ne_zero hpq hqq))
  have := (zpow_lt_zpow_iff_right₀ (by norm_num : (1 : ℚ) < 2)).mp hlt
  rw [place]
  omega

/-- A quotient of whole numbers up to 2^53 is not halfway between two doubles. -/
theorem not_halfway {p q : ℤ} (hp : |p| ≤ 2 ^ 53) (hq : q ≠ 0) (hq' : |q| ≤ 2 ^ 53) :
    |(p / q : ℚ) / spacing (p / q) - roundHalfEven ((p / q : ℚ) / spacing (p / q))| ≠ 1 / 2 := by
  intro h
  by_cases hp0 : p = 0
  · subst hp0
    have hz : roundHalfEven 0 = 0 := roundHalfEven_intCast 0
    rw [Int.cast_zero, zero_div, zero_div, hz] at h
    norm_num at h
  have hqq : (q : ℚ) ≠ 0 := by exact_mod_cast hq
  have hr : (p / q : ℚ) ≠ 0 := div_ne_zero (by exact_mod_cast hp0) hqq
  obtain ⟨k, hk, hko⟩ := exists_odd_of_halfway h
  have hsp := spacing_pos (p / q : ℚ)
  -- The odd number has 54 binary digits, and it divides the numerator, which has at most 53.
  have hbig : (2 : ℤ) ^ 53 ≤ |k| := by
    have : (2 : ℚ) ^ 53 ≤ |(k : ℚ)| := by
      rw [← hk, abs_mul, abs_two, abs_div, abs_of_pos hsp, mul_div_assoc', le_div_iff₀ hsp]
      have := leading_le hr (place_quotient hp0 hq hq')
      linarith
    exact_mod_cast this
  have hne : |k| ≠ 2 ^ 53 := by
    intro e
    have := odd_abs.mpr hko
    rw [e] at this
    exact absurd this (by decide)
  have hdvd : k ∣ p := by
    apply dvd_of_eq_mul_zpow hko (q := q) (g := place (p / q))
    rw [← hk, ← spacing]
    field_simp
  have hle := Int.le_of_dvd (abs_pos.mpr hp0) ((abs_dvd_abs k p).mpr hdvd)
  omega

end Number

end Reckoner
