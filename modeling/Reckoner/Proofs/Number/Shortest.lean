import Mathlib
import Reckoner.Proofs.Number.Order
import Reckoner.Proofs.Number.Written

/-!
# Shortest decimals

A decimal reads back as a double together with everything between the two (`round?_of_between`), so that a grid holds a
decimal that reads back just when one of the two multiples around the double does (`exists_onGrid?`). Seventeen digits
are always enough (`exists_onGrid?_seventeen`). Hence the decimal that is chosen for a double has no more places than any
decimal that reads back as the double (`le_exponent_shortest`).
-/

namespace Reckoner

namespace Number

variable {r s x y : ℚ}

lemma abs_rounded_sub_self_le (r : ℚ) : |rounded r - r| ≤ 1 / 2 * spacing r := by
  have hsp := spacing_pos r
  have hfactor : rounded r - r = -(r / spacing r - roundHalfEven (r / spacing r)) * spacing r := by
    rw [rounded, neg_sub, sub_mul, div_mul_cancel₀ _ hsp.ne']
  rw [hfactor, abs_mul, abs_neg, abs_of_pos hsp]
  exact mul_le_mul_of_nonneg_right (abs_sub_roundHalfEven _) hsp.le

/-- What lies between a double and a number that is rounded to it is rounded to it as well. -/
lemma round?_of_between (hs : IsDouble s) (hx : round? x = some s) (h : x ≤ y ∧ y ≤ s ∨ s ≤ y ∧ y ≤ x) :
    round? y = some s := by
  have hxs := (round?_eq_some hx).1
  have hss := rounded_of_isDouble hs
  have heq : rounded y = s := by
    obtain ⟨h₁, h₂⟩ | ⟨h₁, h₂⟩ := h
    · exact le_antisymm ((rounded_mono h₂).trans_eq hss) (hxs.trans_le (rounded_mono h₁))
    · exact le_antisymm ((rounded_mono h₂).trans_eq hxs.symm) (hss.symm.trans_le (rounded_mono h₁))
  rw [round?, heq, if_pos hs.abs_lt]

/-- A number whose distance from a double is less than a part in 2 · 10^16 of it is rounded to the double. -/
lemma round?_of_close (hr : IsDouble r) (h : 20000000000000000 * |y - r| ≤ |r|) : round? y = some r := by
  have hsp := spacing_pos y
  have hsize := abs_div_spacing_lt y
  rw [abs_div, abs_of_pos hsp, div_lt_iff₀ hsp] at hsize
  have hdist := abs_sub_abs_le_abs_sub r y
  have hdist' := abs_sub_abs_le_abs_sub y r
  rw [abs_sub_comm r y] at hdist
  suffices heq : rounded y = r by rw [round?, heq, if_pos hr.abs_lt]
  by_cases hne : y = 0
  · rw [hne, zero_sub, abs_neg] at h
    have hz : |r| = 0 := by linarith [abs_nonneg r]
    rw [hne, rounded_zero, abs_eq_zero.mp hz]
  obtain ⟨n, e, hn, hlt, hl, -⟩ := hr
  obtain he | he := le_or_gt (place y) e
  · -- The double is a multiple of the spacing, less than half of which it is away.
    obtain ⟨j, hj⟩ := exists_multiple (n := n) he
    rw [← hn] at hj
    have hround : roundHalfEven (y / spacing y) = j := by
      rw [roundHalfEven_eq_iff]
      left
      have hsub : y / spacing y - j = (y - r) / spacing y := by
        rw [hj]
        field_simp
      rw [hsub, abs_div, abs_of_pos hsp, div_lt_iff₀ hsp]
      linarith
    rw [rounded, hround, hj]
  · -- The double is below the leading digit, and half a place away from it.
    exfalso
    obtain ⟨hlow, hhigh⟩ := abs_lt_of_place hne hlt hl he
    have hdigits : |(n : ℚ)| ≤ 2 ^ 53 - 1 := by exact_mod_cast Int.le_sub_one_of_lt hlt
    have hhalf : 2 * (2 : ℚ) ^ e ≤ spacing y := by
      rw [spacing, ← zpow_one_add₀ (by norm_num)]
      exact zpow_le_zpow_right₀ (by norm_num) (by omega)
    have hbelow : |r| ≤ (2 ^ 53 - 1) * (spacing y / 2) := by
      rw [hn, abs_mul, abs_of_pos (two_zpow_pos e)]
      exact mul_le_mul hdigits (by linarith) (two_zpow_pos e).le (by norm_num)
    linarith

end Number

namespace Decimal

open Number (toRat? round? roundHalfEven IsDouble)

section Length

variable {n : ℕ} {r : ℚ} {d : Decimal}

lemma length_pos (n : ℕ) : 0 < length n :=
  List.length_pos_iff.mpr (Text.digitsOfNat_ne_nil n)

lemma lt_ten_pow_length (n : ℕ) : n < 10 ^ length n :=
  (Nat.length_toDigits_le_iff (by norm_num) (length_pos n)).mp le_rfl

lemma ten_pow_le (hn : 0 < n) : 10 ^ (length n - 1) ≤ n := by
  have hpos := length_pos n
  by_contra hlt
  rcases Nat.eq_zero_or_pos (length n - 1) with hz | hk
  · rw [hz, pow_zero] at hlt
    omega
  · have : length n ≤ length n - 1 := (Nat.length_toDigits_le_iff (by norm_num) hk).mpr (not_le.mp hlt)
    omega

/-- A natural number lies between the powers of ten around its length. -/
lemma bounds_length (hn : 0 < n) : (10 : ℚ) ^ ((length n : ℤ) - 1) ≤ n ∧ (n : ℚ) < 10 ^ (length n : ℤ) := by
  have hpos := length_pos n
  have hcast : ((length n - 1 : ℕ) : ℤ) = (length n : ℤ) - 1 := by omega
  rw [← hcast, zpow_natCast, zpow_natCast]
  exact ⟨by exact_mod_cast ten_pow_le hn, by exact_mod_cast lt_ten_pow_length n⟩

/-- How large a decimal is, by the place of its first digit. -/
lemma bounds_toRat (hd : 0 < d.digits) :
    10 ^ (length d.digits + d.exponent - 1) ≤ d.toRat ∧ d.toRat < 10 ^ (length d.digits + d.exponent) := by
  obtain ⟨hlow, hhigh⟩ := bounds_length hd
  have hpos : (0 : ℚ) < 10 ^ d.exponent := zpow_pos (by norm_num) _
  constructor
  · rw [toRat, add_sub_right_comm, zpow_add₀ (by norm_num)]
    exact mul_le_mul_of_nonneg_right hlow hpos.le
  · rw [toRat, zpow_add₀ (by norm_num)]
    exact mul_lt_mul_of_pos_right hhigh hpos

/-- A quotient of natural numbers lies between powers of ten that are two apart. -/
lemma bounds_quotient {p q : ℕ} (hp : 0 < p) (hq : 0 < q) :
    (10 : ℚ) ^ ((length p : ℤ) - length q - 1) ≤ p / q ∧ (p / q : ℚ) < 10 ^ ((length p : ℤ) - length q + 1) := by
  obtain ⟨hp₁, hp₂⟩ := bounds_length hp
  obtain ⟨hq₁, hq₂⟩ := bounds_length hq
  constructor
  · rw [sub_right_comm, zpow_sub₀ (by norm_num)]
    exact div_le_div₀ p.cast_nonneg hp₁ (by exact_mod_cast hq) hq₂.le
  · rw [show (length p : ℤ) - length q + 1 = length p - (length q - 1) by ring, zpow_sub₀ (by norm_num)]
    exact div_lt_div₀ hp₂ hq₁ (by positivity) (by positivity)

/-- The scale is the exponent of the power of ten above the number and next to it. -/
lemma bounds_scale (hr : 0 < r) : (10 : ℚ) ^ (scale r - 1) ≤ r ∧ r < 10 ^ scale r := by
  have hnum := Rat.num_pos.mpr hr
  have hvalue : (r.num.natAbs : ℚ) / r.den = r := by
    rw [Nat.cast_natAbs, abs_of_pos hnum, Rat.num_div_den]
  obtain ⟨hlow, hhigh⟩ := bounds_quotient (Int.natAbs_pos.mpr hnum.ne') r.den_pos
  rw [hvalue] at hlow hhigh
  rw [scale]
  split
  · next hlt => exact ⟨hlow, hlt⟩
  · next hge =>
    rw [add_sub_cancel_right]
    exact ⟨not_lt.mp hge, hhigh⟩

end Length

section Grid

variable {x : Float} {r : ℚ} {j k : ℤ} {d : Decimal}

lemma toRat_toNat (hj : 0 ≤ j) (k : ℤ) : (⟨j.toNat, k⟩ : Decimal).toRat = j * 10 ^ k := by
  obtain ⟨n, rfl⟩ := Int.eq_ofNat_of_zero_le hj
  rfl

lemma toFloat_beq (hx : toRat? x = some r) (hj : 0 ≤ j) (hround : round? (j * 10 ^ k) = some r) :
    ((⟨j.toNat, k⟩ : Decimal).toFloat == x) = true := by
  have hread := toRat?_toFloat ⟨j.toNat, k⟩
  rw [toRat_toNat hj, hround] at hread
  rw [Number.beq_eq hread hx, decide_eq_true rfl]

lemma exponent_onGrid? (h : onGrid? x r k = some d) : d.exponent = k := by
  rw [onGrid?] at h
  obtain hd | hd := List.mem_pair.mp (List.mem_of_find?_eq_some h) <;> rw [hd]

/-- A number in units of a power of ten. -/
lemma units_mul (r : ℚ) (k : ℤ) : r * 10 ^ (-k) * 10 ^ k = r := by
  rw [zpow_neg, inv_mul_cancel_right₀ (by positivity)]

lemma floor_le_roundHalfEven (u : ℚ) : ⌊u⌋ ≤ roundHalfEven u ∧ roundHalfEven u ≤ ⌊u⌋ + 1 := by
  have hhigh := Number.roundHalfEven_mono (Int.lt_floor_add_one u).le
  rw [← Int.cast_one, ← Int.cast_add, Number.roundHalfEven_intCast] at hhigh
  exact ⟨Number.le_roundHalfEven (Int.floor_le u), hhigh⟩

/-- The nearest multiple is taken if it reads back. -/
lemma onGrid?_of_near (hx : toRat? x = some r) (hr : 0 < r) (hj : roundHalfEven (r * 10 ^ (-k)) = j)
    (hround : round? (j * 10 ^ k) = some r) : onGrid? x r k = some ⟨j.toNat, k⟩ := by
  have hnonneg : 0 ≤ j := hj ▸ Number.le_roundHalfEven (by positivity)
  rw [onGrid?]
  simp only [hj]
  exact List.find?_cons_of_pos (toFloat_beq hx hnonneg hround)

/-- If any multiple of a power of ten reads back as the double, one of the two around the double lies between it and the
double, and so reads back as well. -/
lemma exists_neighbour (hr : IsDouble r) (hj : round? (j * 10 ^ k) = some r) :
    ∃ i : ℤ, (i = ⌊r * 10 ^ (-k)⌋ ∨ i = ⌊r * 10 ^ (-k)⌋ + 1) ∧ round? (i * 10 ^ k) = some r := by
  have hten : (0 : ℚ) < 10 ^ k := by positivity
  have hunits := units_mul r k
  generalize r * (10 : ℚ) ^ (-k) = u at hunits
  obtain hle | hlt := le_or_gt (j : ℚ) u
  · refine ⟨⌊u⌋, .inl rfl, Number.round?_of_between hr hj (.inl ⟨?_, ?_⟩)⟩
    · exact mul_le_mul_of_nonneg_right (by exact_mod_cast Int.le_floor.mpr hle) hten.le
    · rw [← hunits]
      exact mul_le_mul_of_nonneg_right (Int.floor_le u) hten.le
  · refine ⟨⌊u⌋ + 1, .inr rfl, Number.round?_of_between hr hj (.inr ⟨?_, ?_⟩)⟩
    · rw [← hunits]
      exact mul_le_mul_of_nonneg_right (by exact_mod_cast (Int.lt_floor_add_one u).le) hten.le
    · have : ⌊u⌋ + 1 ≤ j := Int.floor_lt.mpr hlt
      exact mul_le_mul_of_nonneg_right (by exact_mod_cast this) hten.le

/-- If any multiple of a power of ten reads back as the double, one is found. -/
lemma exists_onGrid? (hx : toRat? x = some r) (hr : 0 < r) (hj : round? (j * 10 ^ k) = some r) :
    ∃ d, onGrid? x r k = some d := by
  obtain ⟨i, hi, hround⟩ := exists_neighbour (Number.isDouble_of_toRat? hx) hj
  have hnonneg : 0 ≤ ⌊r * 10 ^ (-k)⌋ := Int.floor_nonneg.mpr (by positivity)
  have hnear := floor_le_roundHalfEven (r * 10 ^ (-k))
  have hfloor : Rat.floor (r * 10 ^ (-k)) = ⌊r * 10 ^ (-k)⌋ := rfl
  rw [onGrid?, hfloor, ← Option.isSome_iff_exists, List.find?_isSome]
  refine ⟨⟨i.toNat, k⟩, ?_, toFloat_beq hx (by omega) hround⟩
  rw [List.mem_pair]
  split
  · next heq =>
    rw [heq]
    exact hi.imp (fun h => by rw [h]) (fun h => by rw [h])
  · next hne =>
    have hone : roundHalfEven (r * 10 ^ (-k)) = ⌊r * 10 ^ (-k)⌋ + 1 := by omega
    rw [hone]
    exact hi.symm.imp (fun h => by rw [h]) (fun h => by rw [h])

/-- Seventeen digits are enough. -/
lemma exists_onGrid?_seventeen (hx : toRat? x = some r) (hr : 0 < r) :
    ∃ d, onGrid? x r (scale r - 17) = some d := by
  have hlow := (bounds_scale hr).1
  generalize scale r = top at hlow ⊢
  have hten : (0 : ℚ) < 10 ^ (top - 17) := by positivity
  have htop : (10 : ℚ) ^ (top - 1) = 10000000000000000 * 10 ^ (top - 17) := by
    rw [show top - 1 = 16 + (top - 17) by ring, zpow_add₀ (by norm_num)]
    norm_num
  have hunits := units_mul r (top - 17)
  generalize r * 10 ^ (-(top - 17)) = u at hunits
  have hhalf := Number.abs_sub_roundHalfEven u
  have hdist : |(roundHalfEven u : ℚ) * 10 ^ (top - 17) - r| ≤ 1 / 2 * 10 ^ (top - 17) := by
    rw [← hunits, ← sub_mul, abs_mul, abs_of_pos hten, abs_sub_comm]
    exact mul_le_mul_of_nonneg_right hhalf hten.le
  refine exists_onGrid? hx hr (j := roundHalfEven u) (Number.round?_of_close (Number.isDouble_of_toRat? hx) ?_)
  rw [abs_of_pos hr]
  linarith

end Grid

section Powers

variable {r : ℚ} {k : ℤ}

/-- The least positive double is a bit less than half of the lowest power of ten above it. -/
lemma lowest_bounds :
    19 * (10 : ℚ) ^ (-323 : ℤ) < 40 * 2 ^ (-1074 : ℤ) ∧ 40 * (2 : ℚ) ^ (-1074 : ℤ) < 21 * 10 ^ (-323 : ℤ) := by
  have hlow : 19 * 2 ^ 1074 < 40 * 10 ^ 323 := by decide +kernel
  have hhigh : 40 * 10 ^ 323 < 21 * 2 ^ 1074 := by decide +kernel
  simp only [zpow_neg, ← div_eq_mul_inv]
  rw [div_lt_div_iff₀ (by positivity) (by positivity), div_lt_div_iff₀ (by positivity) (by positivity)]
  exact ⟨by exact_mod_cast hlow, by exact_mod_cast hhigh⟩

/-- The lowest power of ten that is not rounded to zero. -/
lemma rounded_lowest (hplace : Number.place (10 ^ (-323 : ℤ)) = -1074) :
    Number.rounded (10 ^ (-323 : ℤ)) = 2 * 2 ^ (-1074 : ℤ) := by
  obtain ⟨hlow, hhigh⟩ := lowest_bounds
  have hunit : (0 : ℚ) < 2 ^ (-1074 : ℤ) := by positivity
  have hround : roundHalfEven ((10 : ℚ) ^ (-323 : ℤ) / 2 ^ (-1074 : ℤ)) = 2 := by
    rw [Number.roundHalfEven_eq_iff, abs_lt, lt_sub_iff_add_lt, sub_lt_iff_lt_add, lt_div_iff₀ hunit,
      div_lt_iff₀ hunit, Int.cast_ofNat]
    left
    constructor <;> linarith
  rw [Number.rounded, Number.spacing, hplace, hround, Int.cast_ofNat]

/-- A power of ten that is not rounded to zero is rounded by less than a twentieth of it. -/
lemma abs_sub_of_power (hr : 0 < r) (h : round? (10 ^ k) = some r) : 20 * |r - 10 ^ k| < 10 ^ k := by
  have hpos : (0 : ℚ) < 10 ^ k := by positivity
  have hten (m n : ℤ) (hn : n = m + 1) : (10 : ℚ) ^ n = 10 * 10 ^ m := by
    rw [hn, zpow_add_one₀ (by norm_num), mul_comm]
  obtain ⟨rfl, -⟩ := Number.round?_eq_some h
  have hdist := Number.abs_rounded_sub_self_le (10 ^ k)
  by_cases hlog : Number.place (10 ^ k) = Int.log 2 |(10 : ℚ) ^ k| - 52
  · have hlead := Number.leading_le hpos.ne' hlog
    rw [abs_of_pos hpos] at hlead
    linarith
  have hplace : Number.place (10 ^ k) = -1074 := by
    rw [Number.place] at hlog ⊢
    omega
  obtain ⟨hlow, hhigh⟩ := lowest_bounds
  obtain hk | rfl | hk : -322 ≤ k ∨ k = -323 ∨ k ≤ -324 := by omega
  · have hle : (10 : ℚ) ^ (-322 : ℤ) ≤ 10 ^ k := zpow_le_zpow_right₀ (by norm_num) hk
    have := hten (-323) (-322) (by norm_num)
    rw [Number.spacing, hplace] at hdist
    linarith
  · rw [rounded_lowest hplace, ← lt_div_iff₀' (by norm_num), abs_lt]
    constructor <;> linarith
  · -- Lower powers are less than half of the lowest double.
    exfalso
    have hround : roundHalfEven ((10 : ℚ) ^ k / 2 ^ (-1074 : ℤ)) = 0 := by
      have hle : (10 : ℚ) ^ k ≤ 10 ^ (-324 : ℤ) := zpow_le_zpow_right₀ (by norm_num) hk
      have := hten (-324) (-323) (by norm_num)
      rw [Number.roundHalfEven_eq_iff, Int.cast_zero, sub_zero, abs_of_pos (by positivity),
        div_lt_iff₀ (by positivity)]
      left
      linarith
    rw [Number.rounded, Number.spacing, hplace, hround, Int.cast_zero, zero_mul] at hr
    exact lt_irrefl 0 hr

/-- What a power of ten is rounded to is nearest to the power itself among the tenths of it. -/
lemma roundHalfEven_of_power (hr : 0 < r) (h : round? (10 ^ k) = some r) :
    roundHalfEven (r * 10 ^ (-(k - 1))) = 10 := by
  have hclose := abs_sub_of_power hr h
  have hten : (0 : ℚ) < 10 ^ (-(k - 1)) := by positivity
  have hunit : (10 : ℚ) ^ k * 10 ^ (-(k - 1)) = 10 := by
    rw [← zpow_add₀ (by norm_num)]
    norm_num
  have hfactor : r * 10 ^ (-(k - 1)) - (10 : ℤ) = (r - 10 ^ k) * 10 ^ (-(k - 1)) := by
    rw [sub_mul, hunit, Int.cast_ofNat]
  have hlt := mul_lt_mul_of_pos_right hclose hten
  rw [Number.roundHalfEven_eq_iff, hfactor, abs_mul, abs_of_pos hten]
  left
  linarith

end Powers

section Exponent

variable {x : Float} {r : ℚ} {j k : ℤ}

lemma exponent_le_strip (d : Decimal) : d.exponent ≤ d.strip.exponent := by
  induction d using strip.induct with
  | case1 d h ih =>
    rw [strip, dif_pos h]
    exact (Int.le_add_one le_rfl).trans ih
  | case2 d h => rw [strip, dif_neg h]

lemma strip_ten (k : ℤ) : strip ⟨10, k⟩ = ⟨1, k + 1⟩ := by
  rw [strip, dif_pos (show 0 < 10 ∧ 10 % 10 = 0 by decide)]
  simp only [Nat.reduceDiv]
  rw [strip, dif_neg (show ¬(0 < 1 ∧ 1 % 10 = 0) by decide)]

/-- A grid that has a decimal is found, or a coarser one is. -/
lemma exists_findSome? {x : Float} {d : Decimal} {top : ℤ} {n m : ℕ} (h : onGrid? x r (top - (n + 1 : ℕ)) = some d)
    (hn : n < m) :
    ∃ d', (List.range m).findSome? (fun i => onGrid? x r (top - (i + 1 : ℕ))) = some d' ∧
      top - (n + 1 : ℕ) ≤ d'.exponent := by
  induction m with
  | zero => omega
  | succ m ih =>
    rw [List.range_succ, List.findSome?_append]
    obtain hlt | rfl := Nat.lt_succ_iff_lt_or_eq.mp hn
    · obtain ⟨d', hd', hle⟩ := ih hlt
      exact ⟨d', by rw [hd', Option.some_or], hle⟩
    · cases hfound : (List.range n).findSome? fun i => onGrid? x r (top - (i + 1 : ℕ)) with
      | none => 
        refine ⟨d, ?_, (exponent_onGrid? h).ge⟩
        rw [Option.none_or, List.findSome?_singleton, h]
      | some d' =>
        obtain ⟨i, hi, hd'⟩ := List.exists_of_findSome?_eq_some hfound
        have hlt := List.mem_range.mp hi
        refine ⟨d', Option.some_or, ?_⟩
        rw [exponent_onGrid? hd']
        omega

lemma shortest_eq (hx : toRat? x = some r) :
    shortest x =
      strip (((List.range 17).findSome? fun n => onGrid? x r (scale r - (n + 1 : ℕ))).getD (ofDyadic r)) := by
  rw [shortest, Number.toRat, hx, Option.getD_some]

/-- The chosen decimal comes from the first grid that has one. -/
lemma le_exponent_shortest_of_grid {d : Decimal} (hx : toRat? x = some r) (hk : onGrid? x r k = some d)
    (hlow : scale r - 17 ≤ k) (hhigh : k < scale r) : k ≤ (shortest x).exponent := by
  obtain ⟨n, hn⟩ := Int.eq_ofNat_of_zero_le (show 0 ≤ scale r - k - 1 by omega)
  obtain rfl : k = scale r - (n + 1 : ℕ) := by omega
  obtain ⟨d', hd', hle⟩ := exists_findSome? hk (show n < 17 by omega)
  rw [shortest_eq hx, hd', Option.getD_some]
  exact hle.trans (exponent_le_strip d')

/-- Where the power of ten above a double reads back as the double, it is chosen. -/
lemma shortest_of_power (hx : toRat? x = some r) (hr : 0 < r) (h : round? (10 ^ scale r) = some r) :
    shortest x = ⟨1, scale r⟩ := by
  have hpower : ((10 : ℤ) : ℚ) * 10 ^ (scale r - 1) = 10 ^ scale r := by
    rw [zpow_sub_one₀ (by norm_num), Int.cast_ofNat]
    ring
  have hgrid := onGrid?_of_near hx hr (roundHalfEven_of_power hr h) (by rw [hpower, h])
  rw [shortest_eq hx, List.range_succ_eq_map, List.findSome?_cons]
  simp only [zero_add, Nat.cast_one, hgrid, Option.getD_some]
  exact (strip_ten _).trans (by rw [sub_add_cancel])

/-- The decimal that is chosen for a double has no more places than any that reads back as the double. -/
theorem le_exponent_shortest (hx : toRat? x = some r) (hr : 0 < r) (hj : round? (j * 10 ^ k) = some r) :
    k ≤ (shortest x).exponent := by
  obtain hlt | hle := lt_or_ge k (scale r)
  · obtain hgrid | hgrid := le_or_gt (scale r - 17) k
    · obtain ⟨d, hd⟩ := exists_onGrid? hx hr hj
      exact le_exponent_shortest_of_grid hx hd hgrid hlt
    · obtain ⟨d, hd⟩ := exists_onGrid?_seventeen hx hr
      exact hgrid.le.trans (le_exponent_shortest_of_grid hx hd le_rfl (by omega))
  · have hten : (0 : ℚ) < 10 ^ k := by positivity
    have hone : 1 ≤ j := by
      by_contra hlow
      have hneg : (j : ℚ) * 10 ^ k ≤ 0 :=
        mul_nonpos_of_nonpos_of_nonneg (by exact_mod_cast (show j ≤ 0 by omega)) hten.le
      have := Number.rounded_mono hneg
      rw [← (Number.round?_eq_some hj).1, Number.rounded_zero] at this
      linarith
    -- The power of ten lies between the double and the decimal, so that it reads back and is next to the double.
    have hhigh := (bounds_scale hr).2
    have hpower : round? (10 ^ k) = some r := by
      refine Number.round?_of_between (Number.isDouble_of_toRat? hx) hj (.inr ⟨?_, ?_⟩)
      · exact hhigh.le.trans (zpow_le_zpow_right₀ (by norm_num) hle)
      · exact le_mul_of_one_le_left hten.le (by exact_mod_cast hone)
    have hscale : k = scale r := by
      by_contra hne
      have hlow : (10 : ℚ) ^ scale r ≤ 10 ^ (k - 1) := zpow_le_zpow_right₀ (by norm_num) (by omega)
      have hclose := abs_sub_of_power hr hpower
      rw [zpow_sub_one₀ (by norm_num)] at hlow
      rw [abs_sub_comm] at hclose
      linarith [le_abs_self (10 ^ k - r)]
    rw [hscale] at hpower ⊢
    rw [shortest_of_power hx hr hpower]

/-- The shortest digits of a double have no zero at their end, since without it they are on a coarser grid. -/
lemma digits_shortest_mod (hx : toRat? x = some r) (hr : 0 < r) : (shortest x).digits % 10 ≠ 0 := by
  intro hz
  have hround := toRat?_shortest hx hr
  have hdigits : ((shortest x).digits : ℚ) = ((shortest x).digits / 10 : ℕ) * 10 := by
    exact_mod_cast (Nat.div_mul_cancel (Nat.dvd_of_mod_eq_zero hz)).symm
  rw [toRat, hdigits, mul_assoc, ← zpow_one_add₀ (by norm_num)] at hround
  have hle := le_exponent_shortest (j := ((shortest x).digits / 10 : ℕ)) hx hr (by exact_mod_cast hround)
  omega

end Exponent

end Decimal

end Reckoner
