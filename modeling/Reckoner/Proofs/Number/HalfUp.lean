import Mathlib
import Reckoner.Symbol.Function
import Reckoner.Proofs.Number.Places
import Reckoner.Proofs.Outcome

/-!
# Rounding half up

A half is added to a number and the whole part of the sum is taken. The sum is a double that is rounded itself, and this
shows in the whole part just where the number is half a place below one half, or is odd and so large that a half is no
double beside it (`Misrounds`). Everywhere else the whole part is that of the exact sum (`floor_rounded_add_half`): the
sum is a double, or there is a double between the sum and the next whole number.
-/

namespace Reckoner

namespace Number

variable {a r s t : ℚ} {n k : ℤ} {x : Float}

/-- The numbers for which the sum with one half is rounded up to a whole number. -/
def Misrounds (a : ℚ) : Prop :=
  a = 1 / 2 - 1 / 2 ^ 54 ∨ ∃ n : ℤ, a = n ∧ Odd n ∧ 2 ^ 52 < |n| ∧ |n| < 2 ^ 53

section Multiples

lemma isDouble_intCast (hn : |n| ≤ 2 ^ 53) : IsDouble n := by
  have h := isDouble_of_digits hn (show -1074 ≤ 0 by norm_num) (by norm_num)
  rwa [zpow_zero, mul_one] at h

/-- A double of at least 53 binary digits above a place is a multiple of this place. -/
lemma IsDouble.exists_multiple_of_le (h : IsDouble r) (hr : 2 ^ (52 + k) ≤ |r|) : ∃ m : ℤ, r = m * 2 ^ k := by
  obtain ⟨n, e, rfl, hn, -, -⟩ := h
  have hn : |(n : ℚ)| < 2 ^ (53 : ℤ) := by exact_mod_cast hn
  have hlt : (2 : ℚ) ^ (52 + k) < 2 ^ (53 + e) := by
    rw [zpow_add₀ (by norm_num) 53, ← abs_of_pos (two_zpow_pos e)]
    rw [abs_mul] at hr
    exact hr.trans_lt (mul_lt_mul_of_pos_right hn (abs_pos.mpr (two_zpow_pos e).ne'))
  have hlt := (zpow_lt_zpow_iff_right₀ (by norm_num : (1 : ℚ) < 2)).mp hlt
  obtain ⟨j, hj⟩ := Int.eq_ofNat_of_zero_le (show 0 ≤ e - k by omega)
  refine ⟨n * 2 ^ j, ?_⟩
  rw [show e = j + k by omega, zpow_add₀ (by norm_num), zpow_natCast]
  push_cast
  ring

lemma IsDouble.abs_le (h : IsDouble r) : |r| ≤ 2 ^ 1024 - 2 ^ 971 := by
  obtain ⟨n, e, rfl, hn, -, he⟩ := h
  have hn : |(n : ℚ)| ≤ 2 ^ 53 - 1 := by exact_mod_cast Int.le_sub_one_of_lt hn
  rw [abs_mul, abs_of_pos (two_zpow_pos e)]
  calc |(n : ℚ)| * 2 ^ e ≤ (2 ^ 53 - 1) * 2 ^ (971 : ℤ) := by
        gcongr
        norm_num
    _ = 2 ^ 1024 - 2 ^ 971 := by
      rw [sub_mul, one_mul, ← zpow_natCast, ← zpow_add₀ (by norm_num)]
      rfl

/-- The whole part of a double is a double. -/
lemma isDouble_floor (h : IsDouble r) : IsDouble ⌊r⌋ := by
  by_cases hw : r.den = 1
  · rw [← (Rat.den_eq_one_iff r).mp hw, Int.floor_intCast, (Rat.den_eq_one_iff r).mp hw]
    exact h
  · obtain ⟨hlow, hhigh⟩ := abs_lt.mp (abs_lt_of_not_whole h hw)
    refine isDouble_intCast (abs_le.mpr ⟨Int.le_floor.mpr ?_, (Int.floor_lt.mpr ?_).le⟩)
    · push_cast
      exact hlow.le
    · push_cast
      exact hhigh

end Multiples

section Sum

/-- The whole part stays if a double lies between the number and the next whole number. -/
lemma floor_rounded_eq (hk : IsDouble ⌊s⌋) (ht : IsDouble t) (hle : s ≤ t) (hlt : t < ⌊s⌋ + 1) :
    ⌊rounded s⌋ = ⌊s⌋ := by
  exact Int.floor_eq_iff.mpr ⟨le_rounded hk (Int.floor_le s), (rounded_le ht hle).trans_lt hlt⟩

/-- The sum with one half of a multiple of a place below the point is a double, as long as it is not too long. -/
lemma isDouble_add_half (ha : a = n * 2 ^ k) (hk : k ≤ -1) (hlow : -1074 ≤ k) (hs : |a + 1 / 2| ≤ 2 ^ (53 + k)) :
    IsDouble (a + 1 / 2) := by
  obtain ⟨j, hj⟩ := Int.eq_ofNat_of_zero_le (show 0 ≤ -1 - k by omega)
  have hhalf : (1 : ℚ) / 2 = 2 ^ j * 2 ^ k := by
    rw [two_pow_mul_zpow, show (j : ℤ) + k = -1 by omega]
    norm_num
  have hsum : a + 1 / 2 = ((n + 2 ^ j : ℤ) : ℚ) * 2 ^ k := by
    rw [ha, hhalf]
    push_cast
    ring
  rw [hsum, abs_mul, abs_of_pos (two_zpow_pos k), zpow_add₀ (by norm_num),
    mul_le_mul_iff_left₀ (two_zpow_pos k)] at hs
  rw [hsum]
  exact isDouble_of_digits (by exact_mod_cast hs) hlow (by omega)

/-- Below one half the sum is short of one, but for the number half a place below. -/
lemma le_of_lt_half (h : IsDouble a) (hlt : a < 1 / 2) (hne : a ≠ 1 / 2 - 1 / 2 ^ 54) : a ≤ 1 / 2 - 1 / 2 ^ 53 := by
  by_contra hgt
  rw [not_le] at hgt
  have hquarter : (2 : ℚ) ^ (52 + -54 : ℤ) ≤ |a| := by
    refine le_trans ?_ (le_abs_self a)
    norm_num at hgt ⊢
    linarith
  obtain ⟨m, rfl⟩ := h.exists_multiple_of_le hquarter
  have hplace : (2 : ℚ) ^ (-54 : ℤ) = 1 / 2 ^ 54 := by norm_num
  rw [hplace] at hlt hgt hne
  have hlow : (2 ^ 53 - 2 : ℤ) < m := by
    have : (2 ^ 53 - 2 : ℚ) < m := by linarith
    exact_mod_cast this
  have hhigh : m < 2 ^ 53 := by
    have : (m : ℚ) < 2 ^ 53 := by linarith
    exact_mod_cast this
  obtain rfl : m = 2 ^ 53 - 1 := by omega
  norm_num at hne

/-- Up to 2^52 the places of a double reach below the point, so the sum is a double if it is not longer. -/
lemma isDouble_add_half_self (h : IsDouble a) (hlt : |a| < 2 ^ 52) (hs : |a + 1 / 2| ≤ 2 ^ (53 + place a)) :
    IsDouble (a + 1 / 2) := by
  have hplace : place a ≤ -1 := by
    by_contra hhigh
    have hlog : place a = Int.log 2 |a| - 52 := by
      rw [place] at hhigh ⊢
      omega
    have hne : a ≠ 0 := by
      rintro rfl
      rw [place, abs_zero, Int.log_zero_right] at hhigh
      omega
    have hspacing : (1 : ℚ) ≤ spacing a := one_le_zpow₀ (by norm_num) (by omega)
    have hlead := leading_le hne hlog
    linarith
  obtain ⟨n, e, rfl, hn, he, -⟩ := h
  obtain ⟨j, hj⟩ := exists_multiple_self hn he
  exact isDouble_add_half hj hplace (le_max_right _ _) hs

lemma abs_lt_zpow_place (a : ℚ) : |a| < 2 ^ (53 + place a) := by
  have := abs_div_spacing_lt a
  rwa [abs_div, abs_of_pos (spacing_pos a), div_lt_iff₀ (spacing_pos a), spacing, two_pow_mul_zpow] at this

/-- Around zero the last double before one is not below the sum. -/
lemma exists_between_of_lt_half (h : IsDouble a) (hlow : -1 / 2 ≤ a) (hhalf : a < 1 / 2)
    (hne : a ≠ 1 / 2 - 1 / 2 ^ 54) : ∃ t, IsDouble t ∧ a + 1 / 2 ≤ t ∧ t < ⌊a + 1 / 2⌋ + 1 := by
  have hfloor : ⌊a + 1 / 2⌋ = 0 := Int.floor_eq_zero_iff.mpr ⟨by linarith, by linarith⟩
  have hle := le_of_lt_half h hhalf hne
  refine ⟨1 - 1 / 2 ^ 53, ⟨2 ^ 53 - 1, -53, by norm_num, by norm_num, by norm_num, by norm_num⟩, by linarith, ?_⟩
  rw [hfloor]
  norm_num

/-- The half above a whole part that is not too long is a double. -/
lemma isDouble_intCast_add_half (hlow : 0 ≤ k) (hhigh : k < 2 ^ 52) : IsDouble ((k : ℚ) + 1 / 2) := by
  have hlow : (0 : ℚ) ≤ k := by exact_mod_cast hlow
  have hhigh : (k : ℚ) + 1 ≤ 2 ^ 52 := by exact_mod_cast hhigh
  refine isDouble_add_half (n := 2 * k) (k := -1) ?_ le_rfl (by norm_num) ?_
  · push_cast
    norm_num
    ring
  · rw [abs_of_pos (by linarith)]
    norm_num
    linarith

/-- Above its whole part a number has no power of two between itself and the sum. -/
lemma isDouble_add_half_of_floor_lt (h : IsDouble a) (hhalf : 1 / 2 ≤ a) (hlt : a < 2 ^ 52)
    (hfloor : ⌊a + 1 / 2⌋ < a) : IsDouble (a + 1 / 2) := by
  have habs : |a| = a := abs_of_pos (by linarith)
  have hsize := abs_lt_zpow_place a
  rw [habs] at hsize
  refine isDouble_add_half_self h (by rwa [habs]) ?_
  have hexp : 0 ≤ 53 + place a := by
    by_contra hneg
    have : (2 : ℚ) ^ (53 + place a) ≤ 2 ^ (-1 : ℤ) := zpow_le_zpow_right₀ (by norm_num) (by omega)
    norm_num at this
    linarith
  obtain ⟨m, hm⟩ := Int.eq_ofNat_of_zero_le hexp
  rw [hm, zpow_natCast] at hsize ⊢
  have hfit : ⌊a + 1 / 2⌋ < 2 ^ m := by exact_mod_cast hfloor.trans hsize
  have hfit : (⌊a + 1 / 2⌋ : ℚ) + 1 ≤ 2 ^ m := by exact_mod_cast hfit
  rw [abs_of_pos (by linarith)]
  linarith [Int.lt_floor_add_one (a + 1 / 2)]

/-- With 52 binary digits before the point the places of a double include one half. -/
lemma isDouble_add_half_of_le (h : IsDouble a) (hlow : 2 ^ 51 ≤ a) (hlt : a < 2 ^ 52) : IsDouble (a + 1 / 2) := by
  have hpos : 0 < a + 1 / 2 := by linarith
  obtain ⟨m, rfl⟩ := h.exists_multiple_of_le (k := -1) (by rw [abs_of_pos (by linarith)]; norm_num; exact hlow)
  refine isDouble_add_half rfl le_rfl (by norm_num) ?_
  have hm : m < 2 ^ 53 := by
    have : (m : ℚ) < 2 ^ 53 := by
      norm_num at hlt
      linarith
    exact_mod_cast this
  have hm : (m : ℚ) + 1 ≤ 2 ^ 53 := by exact_mod_cast hm
  rw [abs_of_pos hpos]
  norm_num
  linarith

/-- There is a double between the sum and the next whole number, the sum included. -/
lemma exists_between (h : IsDouble a) (hlt : |a| < 2 ^ 52) (hne : a ≠ 1 / 2 - 1 / 2 ^ 54) :
    ∃ t, IsDouble t ∧ a + 1 / 2 ≤ t ∧ t < ⌊a + 1 / 2⌋ + 1 := by
  have hself (hs : IsDouble (a + 1 / 2)) : ∃ t, IsDouble t ∧ a + 1 / 2 ≤ t ∧ t < ⌊a + 1 / 2⌋ + 1 :=
    ⟨_, hs, le_rfl, Int.lt_floor_add_one _⟩
  obtain hneg | hneg := le_or_gt a (-1 / 4)
  · -- The sum is not longer than the number.
    refine hself (isDouble_add_half_self h hlt (le_trans ?_ (abs_lt_zpow_place a).le))
    rw [abs_of_neg (by linarith : a < 0), abs_le]
    constructor <;> linarith
  obtain hhalf | hhalf := lt_or_ge a (1 / 2)
  · exact exists_between_of_lt_half h (by linarith) hhalf hne
  rw [abs_of_pos (by linarith)] at hlt
  obtain hbig | hsmall := le_or_gt (2 ^ 51) a
  · exact hself (isDouble_add_half_of_le h hbig hlt)
  have hlow := Int.floor_le (a + 1 / 2)
  have hhigh := Int.lt_floor_add_one (a + 1 / 2)
  obtain hle | hgt := le_or_gt a ⌊a + 1 / 2⌋
  · -- The number is at most the whole part, so the half above the whole part is a double in between.
    refine ⟨⌊a + 1 / 2⌋ + 1 / 2, isDouble_intCast_add_half (Int.floor_nonneg.mpr (by linarith)) ?_, by linarith,
      by linarith⟩
    refine Int.floor_lt.mpr ?_
    push_cast
    linarith
  · exact hself (isDouble_add_half_of_floor_lt h hhalf hlt hgt)

end Sum

section Whole

/-- With 53 binary digits before the point a number is rounded to a whole one. -/
lemma rounded_eq_roundHalfEven (hlow : 2 ^ 52 ≤ |r|) (hhigh : |r| < 2 ^ 53) : rounded r = roundHalfEven r := by
  have hpos : 0 < |r| := lt_of_lt_of_le (by norm_num) hlow
  have hlog : Int.log 2 |r| = 52 := (log_eq_iff hpos).mpr ⟨by exact_mod_cast hlow, by exact_mod_cast hhigh⟩
  have hspacing : spacing r = 1 := by
    rw [spacing, place, hlog]
    norm_num
  rw [rounded, hspacing, div_one, mul_one]

/-- An odd double has at most 53 binary digits. -/
lemma abs_lt_of_odd (h : IsDouble n) (hn : Odd n) : |n| < 2 ^ 53 := by
  by_contra hge
  have hge : (2 : ℚ) ^ (52 + 1 : ℤ) ≤ |(n : ℚ)| := by exact_mod_cast not_lt.mp hge
  obtain ⟨m, hm⟩ := h.exists_multiple_of_le hge
  rw [zpow_one] at hm
  have hm : n = m * 2 := by exact_mod_cast hm
  exact (Int.not_even_iff_odd.mpr hn) ⟨m, by omega⟩

lemma round?_add_half (h : IsDouble a) : round? (a + 1 / 2) = some (rounded (a + 1 / 2)) := by
  have hle := h.abs_le
  have htri := abs_add_le a (1 / 2)
  have hpow : (1 : ℚ) ≤ 2 ^ 970 := one_le_pow₀ (by norm_num)
  rw [abs_of_pos (by norm_num : (0 : ℚ) < 1 / 2)] at htri
  rw [two_pow_largest.2] at hle
  rw [round?, if_pos]
  rw [abs_rounded_lt_iff]
  generalize (2 : ℚ) ^ 970 = p, (2 : ℚ) ^ 1024 = q at hle hpow ⊢
  linarith

lemma floor_add_half (n : ℤ) : ⌊(n : ℚ) + 1 / 2⌋ = n := by
  rw [Int.floor_intCast_add]
  norm_num

/-- The sum is halfway between whole numbers where these are the doubles. -/
lemma roundHalfEven_add_half (hlow : 2 ^ 52 ≤ |n|) (hne : n ≠ -2 ^ 52) (hmin : -2 ^ 53 ≤ n) (hmax : n < 2 ^ 53) :
    rounded (n + 1 / 2) = roundHalfEven (n + 1 / 2) := by
  have hmin : (-2 ^ 53 : ℚ) ≤ n := by exact_mod_cast hmin
  have hmax : (n : ℚ) + 1 ≤ 2 ^ 53 := by exact_mod_cast hmax
  refine rounded_eq_roundHalfEven (le_abs.mpr ?_) (abs_lt.mpr ⟨by linarith, by linarith⟩)
  obtain hpos | hneg := le_abs.mp hlow
  · have : (2 : ℚ) ^ 52 ≤ n := by exact_mod_cast hpos
    exact .inl (by linarith)
  · have : (n : ℚ) + 1 ≤ -2 ^ 52 := by exact_mod_cast show n + 1 ≤ -2 ^ 52 by omega
    exact .inr (by linarith)

/-- An even number is the whole part of its sum with one half, rounded or not. -/
lemma floor_rounded_of_even (h : IsDouble n) (hle : 2 ^ 52 ≤ |n|) (hn : Even n) :
    ⌊rounded (n + 1 / 2)⌋ = n := by
  have hnear := abs_rounded_sub_le h (r := n + 1 / 2)
  have hdouble := isDouble_of_round? (round?_add_half h)
  rw [sub_add_cancel_left, abs_neg, abs_of_pos (by norm_num : (0 : ℚ) < 1 / 2), abs_le] at hnear
  refine Int.floor_eq_iff.mpr ⟨by linarith, lt_of_le_of_ne (by linarith) fun heq => ?_⟩
  -- A sum rounded up would be an odd double, which tells its size.
  rw [heq, ← Int.cast_one, ← Int.cast_add] at hdouble
  obtain ⟨hmin, hmax⟩ := abs_lt.mp (abs_lt_of_odd hdouble hn.add_one)
  obtain rfl | hne := eq_or_ne n (-2 ^ 52)
  · have hsum : IsDouble (((-2 ^ 52 : ℤ) : ℚ) + 1 / 2) :=
      ⟨-(2 ^ 53 - 1), -1, by norm_num, by norm_num, by norm_num, by norm_num⟩
    rw [rounded_of_isDouble hsum] at heq
    norm_num at heq
  · have hhalf : roundHalfEven ((n : ℚ) + 1 / 2) = n := roundHalfEven_eq_iff.mpr (.inr ⟨by norm_num, hn⟩)
    rw [roundHalfEven_add_half hle hne (by omega) (by omega), hhalf] at heq
    linarith

/-- An odd number has the next whole number as the rounded sum. -/
lemma rounded_of_odd (hlow : 2 ^ 52 < |n|) (hhigh : |n| < 2 ^ 53) (hn : Odd n) :
    rounded (n + 1 / 2) = (n + 1 : ℤ) := by
  obtain ⟨hmin, hmax⟩ := abs_lt.mp hhigh
  have hne : n ≠ -2 ^ 52 := by
    rintro rfl
    norm_num at hlow
  have hhalf : roundHalfEven ((n : ℚ) + 1 / 2) = n + 1 := by
    refine roundHalfEven_eq_iff.mpr (.inr ⟨?_, hn.add_one⟩)
    push_cast
    rw [add_sub_add_left_eq_sub]
    norm_num
  rw [roundHalfEven_add_half hlow.le hne hmin.le hmax, hhalf]

end Whole

/-- Half a place below one is halfway between the last double there and one. -/
lemma rounded_below_one : rounded (1 / 2 - 1 / 2 ^ 54 + 1 / 2) = 1 := by
  have hlog : Int.log 2 |(1 / 2 - 1 / 2 ^ 54 + 1 / 2 : ℚ)| = -1 := by
    rw [abs_of_pos (by norm_num), log_eq_iff (by norm_num)]
    norm_num
  have hspacing : spacing (1 / 2 - 1 / 2 ^ 54 + 1 / 2) = 1 / 2 ^ 53 := by
    rw [spacing, place, hlog]
    norm_num
  have hround : roundHalfEven ((1 / 2 - 1 / 2 ^ 54 + 1 / 2) / (1 / 2 ^ 53)) = 2 ^ 53 :=
    roundHalfEven_eq_iff.mpr (.inr ⟨by norm_num, by decide⟩)
  rw [rounded, hspacing, hround]
  norm_num

/-- A whole double from 2^52 on that does not misround is even. -/
lemma even_of_not_misrounds (h : IsDouble n) (hbig : 2 ^ 52 ≤ |n|) (hsound : ¬Misrounds n) : Even n := by
  by_contra hodd
  rw [Int.not_even_iff_odd] at hodd
  have hne : (2 : ℤ) ^ 52 ≠ |n| := fun heq => by
    have hpow : Odd ((2 : ℤ) ^ 52) := heq ▸ odd_abs.mpr hodd
    exact absurd hpow (by decide)
  exact hsound (.inr ⟨n, rfl, hodd, lt_of_le_of_ne hbig hne, abs_lt_of_odd h hodd⟩)

/-- The whole part of the rounded sum is that of the sum, or the next whole number where it misrounds. -/
theorem floor_rounded_add_half (h : IsDouble a) :
    (¬Misrounds a → ⌊rounded (a + 1 / 2)⌋ = ⌊a + 1 / 2⌋) ∧
      (Misrounds a → ⌊rounded (a + 1 / 2)⌋ = ⌊a + 1 / 2⌋ + 1) := by
  refine ⟨fun hsound => ?_, ?_⟩
  · obtain hbig | hsmall := le_or_gt (2 ^ 52) |a|
    · obtain ⟨n, hn⟩ := h.exists_multiple_of_le (k := 0) hbig
      rw [zpow_zero, mul_one] at hn
      subst hn
      have hbig : 2 ^ 52 ≤ |n| := by exact_mod_cast hbig
      rw [floor_rounded_of_even h hbig (even_of_not_misrounds h hbig hsound), floor_add_half]
    · obtain ⟨t, ht, hle, hlt⟩ := exists_between h hsmall fun heq => hsound (.inl heq)
      obtain ⟨hmin, hmax⟩ := abs_lt.mp hsmall
      refine floor_rounded_eq (isDouble_intCast (abs_le.mpr ⟨Int.le_floor.mpr ?_, ?_⟩)) ht hle hlt
      · push_cast
        linarith
      · refine (Int.floor_lt.mpr ?_).le
        push_cast
        linarith
  · rintro (rfl | ⟨n, rfl, hodd, hlow, hhigh⟩)
    · rw [rounded_below_one]
      norm_num
    · rw [rounded_of_odd hlow hhigh hodd, Int.floor_intCast, floor_add_half]

/-- Whole numbers become the nearest doubles. -/
lemma toRat?_ofInt (n : ℤ) : toRat? (Float.ofInt n) = round? n := by
  have hnat (m : ℕ) : toRat? (Float.ofNat m) = round? m := by
    have h := toRat?_ofScientific m false 0
    rwa [if_neg Bool.false_ne_true, pow_zero, mul_one] at h
  cases n with
  | ofNat m => exact hnat m
  | negSucc m =>
    have hneg : toRat? (-Float.ofNat (m + 1)) = round? (-((m + 1 : ℕ) : ℚ)) := by
      rw [round?_neg, ← hnat]
      cases h : toRat? (Float.ofNat (m + 1)) with
      | none => exact toRat?_neg_of_none h
      | some r => exact toRat?_neg h
    rw [Int.negSucc_eq]
    push_cast at hneg ⊢
    exact hneg

end Number

namespace Function

open Number (toRat? Misrounds rounded round?)

variable {a : ℚ} {x : Float}

/-- Every finite double is rounded, to the whole part of the rounded sum with one half. -/
lemma exists_apply_round (ha : toRat? x = some a) :
    ∃ y, round.apply x = .ok y ∧ toRat? y = some (⌊rounded (a + 1 / 2)⌋ : ℚ) := by
  have hdouble := Number.isDouble_of_toRat? ha
  have hhalf : toRat? 0.5 = some (1 / 2) := by decide +kernel
  have hsum : toRat? (x + 0.5) = some (rounded (a + 1 / 2)) :=
    (Number.toRat?_add ha hhalf).trans (Number.round?_add_half hdouble)
  have hvalue : toRat? (Float.ofInt ⌊rounded (a + 1 / 2)⌋) = some (⌊rounded (a + 1 / 2)⌋ : ℚ) :=
    (Number.toRat?_ofInt _).trans
      (Number.round?_of_isDouble (Number.isDouble_floor (Number.isDouble_of_toRat? hsum)))
  have hfinite := (Number.isFinite_iff _).mpr ⟨_, hvalue⟩
  refine ⟨_, ?_, hvalue⟩
  rw [apply, compute, whole, hsum]
  exact if_pos hfinite

/-- A finite double is rounded half up just where it does not misround. Only there the result differs from the double by
at most one half and a whole number stays; where it misrounds the result is the next whole number. -/
theorem round_halfUp_iff (ha : toRat? x = some a) :
    ∃ y b, round.apply x = .ok y ∧ toRat? y = some b ∧ (b = ⌊a + 1 / 2⌋ ↔ ¬Misrounds a) ∧
      (|b - a| ≤ 1 / 2 ↔ ¬Misrounds a) ∧ (a.den = 1 → (b = a ↔ ¬Misrounds a)) ∧
      (Misrounds a → b = ⌊a + 1 / 2⌋ + 1) := by
  obtain ⟨y, hy, hvalue⟩ := exists_apply_round ha
  obtain ⟨hsound, hmis⟩ := Number.floor_rounded_add_half (Number.isDouble_of_toRat? ha)
  have hlow := Int.floor_le (a + 1 / 2)
  have hhigh := Int.lt_floor_add_one (a + 1 / 2)
  have hwhole (hw : a.den = 1) : (⌊a + 1 / 2⌋ : ℚ) = a := by
    rw [← (Rat.den_eq_one_iff a).mp hw, Number.floor_add_half]
  refine ⟨y, _, hy, hvalue, ?_⟩
  by_cases h : Misrounds a
  · rw [hmis h, Int.cast_add, Int.cast_one]
    refine ⟨iff_of_false (by linarith) (not_not.mpr h), iff_of_false ?_ (not_not.mpr h), fun hw => ?_, fun _ => rfl⟩
    · have := le_abs_self ((⌊a + 1 / 2⌋ : ℚ) + 1 - a)
      linarith
    · rw [hwhole hw]
      exact iff_of_false (by linarith) (not_not.mpr h)
  · rw [hsound h]
    refine ⟨iff_of_true rfl h, iff_of_true ?_ h, fun hw => iff_of_true (hwhole hw) h, fun hmis => absurd hmis h⟩
    rw [abs_le]
    constructor <;> linarith

/-- A tie below zero is rounded up. -/
theorem round_halfUp_iff_tie :
    ∃ y b, round.apply (-2.5) = .ok y ∧ toRat? y = some b ∧ (b = ⌊(-5 / 2 : ℚ) + 1 / 2⌋ ↔ ¬Misrounds (-5 / 2)) ∧
      (|b - -5 / 2| ≤ 1 / 2 ↔ ¬Misrounds (-5 / 2)) ∧ ((-5 / 2 : ℚ).den = 1 → (b = -5 / 2 ↔ ¬Misrounds (-5 / 2))) ∧
      (Misrounds (-5 / 2) → b = ⌊(-5 / 2 : ℚ) + 1 / 2⌋ + 1) :=
  round_halfUp_iff (by decide +kernel)

/-- The last double below one half is rounded to one, and an odd number above 2^52 to the next even one. -/
theorem round_not_halfUp :
    (round.apply 0.49999999999999994 = .ok 1 ∧ toRat? 0.49999999999999994 = some (1 / 2 - 1 / 2 ^ 54) ∧
      ⌊(1 / 2 - 1 / 2 ^ 54 + 1 / 2 : ℚ)⌋ = 0) ∧
      round.apply 4503599627370497 = .ok 4503599627370498 ∧ toRat? 4503599627370497 = some 4503599627370497 := by
  refine ⟨⟨?_, by decide +kernel, by norm_num⟩, ?_, by decide +kernel⟩
  · exact Outcome.toOption_eq_some.mp (by decide +kernel)
  · exact Outcome.toOption_eq_some.mp (by decide +kernel)

end Function

end Reckoner
