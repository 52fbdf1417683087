import Mathlib
import Reckoner.Number.Ratio

/-!
# Best approximations

Every step of a continued fraction keeps two convergents whose cross product is one, with the number between them
(`Convergents.Approach`). Where the walk ends at a bound on the denominators, the last convergent and the last
semiconvergent are such neighbours as well, and a fraction between neighbours has a denominator no smaller than the sum
of theirs (`add_le_of_between`). So no fraction within the bound is closer to the number than the closer of these two
(`closestFraction_best`).
-/

namespace Reckoner

namespace Number

section Neighbours

variable {p p' : ℤ} {q q' : ℕ} {r x : ℚ}

lemma le_div_iff_num (hq : 0 < q) : r ≤ p / q ↔ r.num * q ≤ p * r.den := by
  have hq' : (0 : ℚ) < q := by exact_mod_cast hq
  have hd : (0 : ℚ) < r.den := by exact_mod_cast r.den_pos
  conv_lhs => rw [← Rat.num_div_den r, div_le_div_iff₀ hd hq']
  exact_mod_cast Iff.rfl

lemma div_le_iff_num (hq : 0 < q) : (p : ℚ) / q ≤ r ↔ p * r.den ≤ r.num * q := by
  have hq' : (0 : ℚ) < q := by exact_mod_cast hq
  have hd : (0 : ℚ) < r.den := by exact_mod_cast r.den_pos
  conv_lhs => rw [← Rat.num_div_den r, div_le_div_iff₀ hq' hd]
  exact_mod_cast Iff.rfl

/-- A fraction between two neighbours has a denominator no smaller than the sum of theirs. -/
lemma add_le_of_between (hcross : p * q' - p' * q = 1) (hq : 0 < q) (hq' : 0 < q') (hlow : (p' : ℚ) / q' < x)
    (hhigh : x < p / q) : q + q' ≤ x.den := by
  have hlow : p' * x.den + 1 ≤ x.num * q' := not_le.mp fun h => hlow.not_ge ((le_div_iff_num hq').mpr h)
  have hhigh : x.num * q + 1 ≤ p * x.den := not_le.mp fun h => hhigh.not_ge ((div_le_iff_num hq).mpr h)
  have hsum : (x.den : ℤ) = q' * (p * x.den - x.num * q) + q * (x.num * q' - p' * x.den) := by
    linear_combination -(x.den : ℤ) * hcross
  have h₁ : (q' : ℤ) ≤ q' * (p * x.den - x.num * q) := le_mul_of_one_le_right (by positivity) (by linarith)
  have h₂ : (q : ℤ) ≤ q * (x.num * q' - p' * x.den) := le_mul_of_one_le_right (by positivity) (by linarith)
  have : (q + q' : ℤ) ≤ x.den := by linarith
  exact_mod_cast this

/-- Of two neighbours around a number one is at least as close to it as a fraction with a smaller denominator than the
sum of theirs. -/
lemma abs_sub_le_of_neighbours (hcross : p * q' - p' * q = 1) (hq : 0 < q) (hq' : 0 < q') (hlow : (p' : ℚ) / q' ≤ r)
    (hhigh : r ≤ p / q) (hx : x.den < q + q') :
    |(p : ℚ) / q - r| ≤ |x - r| ∨ |(p' : ℚ) / q' - r| ≤ |x - r| := by
  by_cases hlow' : x ≤ p' / q'
  · right
    rw [abs_of_nonpos (sub_nonpos.mpr hlow), abs_of_nonpos (sub_nonpos.mpr (hlow'.trans hlow))]
    linarith
  · by_cases hhigh' : p / q ≤ x
    · left
      rw [abs_of_nonneg (sub_nonneg.mpr hhigh), abs_of_nonneg (sub_nonneg.mpr (hhigh.trans hhigh'))]
      linarith
    · have := add_le_of_between hcross hq hq' (not_le.mp hlow') (not_le.mp hhigh')
      omega

end Neighbours

namespace Convergents

/-- Convergents on the way to `r`, where `n / d` is what is left of the continued fraction. Only before the first step
can that be negative. -/
structure Approach (r : ℚ) (c : Convergents) (n : ℤ) (d : ℕ) : Prop where
  num : c.p₁ * n + c.p₀ * d = r.num
  den : c.q₁ * n + c.q₀ * d = r.den
  cross : c.p₁ * c.q₀ - c.p₀ * c.q₁ = 1 ∨ c.p₀ * c.q₁ - c.p₁ * c.q₀ = 1
  nonneg : c.q₁ = 0 ∨ 0 ≤ n

variable {bound : ℕ} {r : ℚ} {c : Convergents} {n : ℤ} {d : ℕ}

lemma approach_start (r : ℚ) : Approach r .start r.num r.den :=
  ⟨by simp [start], by simp [start], by simp [start], .inl rfl⟩

namespace Approach

lemma cast_toNat_mul (h : Approach r c n d) : (((n / d).toNat * c.q₁ : ℕ) : ℤ) = n / d * c.q₁ := by
  obtain hz | hn := h.nonneg
  · simp [hz]
  · push_cast
    rw [Int.toNat_of_nonneg (Int.ediv_nonneg hn d.cast_nonneg)]

lemma next (h : Approach r c n d) (hd : d ≠ 0) : Approach r (c.next (n / d)) d (n % d).toNat := by
  have hsplit : (d : ℤ) * (n / d) + n % d = n := Int.mul_ediv_add_emod n d
  have hrest : (((n % d).toNat : ℕ) : ℤ) = n % d := Int.toNat_of_nonneg (Int.emod_nonneg n (by omega))
  have hq := h.cast_toNat_mul
  refine ⟨?_, ?_, ?_, .inr d.cast_nonneg⟩
  · rw [hrest]
    simp only [Convergents.next]
    linear_combination h.num + c.p₁ * hsplit
  · rw [hrest]
    simp only [Convergents.next, Nat.cast_add, hq]
    linear_combination h.den + c.q₁ * hsplit
  · simp only [Convergents.next, Nat.cast_add, hq]
    obtain hcross | hcross := h.cross
    · right
      linear_combination hcross
    · left
      linear_combination hcross

/-- The walk does not end before the denominator of the number is reached. -/
lemma ne_zero (h : Approach r c n d) (h₁ : c.q₁ < r.den) : d ≠ 0 := by
  rintro rfl
  have hnum := h.num
  have hden := h.den
  rw [Nat.cast_zero, mul_zero, add_zero] at hnum hden
  have hdvd : n.natAbs ∣ r.num.natAbs.gcd r.den :=
    Nat.dvd_gcd (Int.natAbs_dvd_natAbs.mpr ⟨_, by rw [← hnum, mul_comm]⟩)
      (Int.natCast_dvd_natCast.mp (Int.natAbs_dvd.mpr ⟨_, by rw [← hden, mul_comm]⟩))
  rw [r.reduced, Nat.dvd_one] at hdvd
  have hpos := r.den_pos
  obtain hz | hn := h.nonneg
  · rw [hz, Nat.cast_zero, zero_mul] at hden
    omega
  · obtain rfl : n = 1 := by omega
    omega

end Approach

/-- The walk up to a bound ends with convergents within the bound, of which the next is beyond it. -/
theorem exists_last (h : Approach r c n d) (hr : bound < r.den) (h₀ : c.q₀ ≤ bound) (h₁ : c.q₁ ≤ bound) :
    ∃ n' d', Approach r (last bound c n d) n' d' ∧ d' ≠ 0 ∧ (last bound c n d).q₀ ≤ bound ∧
      (last bound c n d).q₁ ≤ bound ∧ bound < ((last bound c n d).next (n' / d')).q₁ := by
  induction c, n, d using last.induct bound with
  | case1 c n => exact absurd rfl (h.ne_zero (h₁.trans_lt hr))
  | case2 c n d hd following hnext =>
    rw [last, dif_neg hd, if_pos hnext]
    exact ⟨n, d, h, hd, h₀, h₁, hnext⟩
  | case3 c n d hd following hnext ih =>
    rw [last, dif_neg hd, if_neg hnext]
    exact ih (h.next hd) h₁ (not_lt.mp hnext)

/-- The semiconvergent `k` steps after the convergents. -/
def semiconvergent (c : Convergents) (k : ℕ) : ℚ :=
  mkRat (c.p₀ + k * c.p₁) (c.q₀ + k * c.q₁)

/-- The last convergent. -/
def convergent (c : Convergents) : ℚ :=
  mkRat c.p₁ c.q₁

/-- The last convergents within a bound and the last semiconvergent after them. -/
structure Closing (bound : ℕ) (r : ℚ) (c : Convergents) (n : ℤ) (d k : ℕ) : Prop extends Approach r c n d where
  pos : 0 < c.q₁
  pos_semi : 0 < c.q₀ + k * c.q₁
  le : c.q₁ ≤ bound
  le_semi : c.q₀ + k * c.q₁ ≤ bound
  lt_add : bound < c.q₁ + (c.q₀ + k * c.q₁)
  mul_le : (k : ℤ) * d ≤ n

lemma Approach.closing (h : Approach r c n d) (hd : d ≠ 0) (h₀ : c.q₀ ≤ bound) (h₁ : c.q₁ ≤ bound)
    (hnext : bound < (c.next (n / d)).q₁) : Closing bound r c n d ((bound - c.q₀) / c.q₁) := by
  change bound < c.q₀ + (n / d).toNat * c.q₁ at hnext
  have hpos : 0 < c.q₁ := by
    rcases Nat.eq_zero_or_pos c.q₁ with hz | hpos
    · rw [hz, mul_zero, add_zero] at hnext
      omega
    · exact hpos
  have hle := Nat.div_mul_le_self (bound - c.q₀) c.q₁
  have hlt := Nat.lt_div_mul_add hpos (a := bound - c.q₀)
  generalize (bound - c.q₀) / c.q₁ = k at hle hlt
  have hk : k < (n / d).toNat := Nat.lt_of_mul_lt_mul_right (a := c.q₁) (by omega)
  refine ⟨h, hpos, ?_, h₁, by omega, by omega, ?_⟩
  · by_contra hz
    omega
  · have hd' : (0 : ℤ) < d := by omega
    exact (Int.le_ediv_iff_mul_le hd').mp (by omega)

namespace Closing

variable {k : ℕ} {x : ℚ}

/-- Of the last convergent and the last semiconvergent one is at least as close as any fraction within the bound. -/
theorem abs_sub_le (h : Closing bound r c n d k) (hx : x.den ≤ bound) :
    |c.convergent - r| ≤ |x - r| ∨ |c.semiconvergent k - r| ≤ |x - r| := by
  have hnum := h.num
  have hden := h.den
  have hmix := h.mul_le
  have hd : (0 : ℤ) ≤ d := d.cast_nonneg
  rw [convergent, semiconvergent, Rat.mkRat_eq_div, Rat.mkRat_eq_div]
  obtain hcross | hcross := h.cross
  · have hcross' : c.p₁ * (c.q₀ + k * c.q₁ : ℕ) - (c.p₀ + k * c.p₁) * c.q₁ = 1 := by
      push_cast
      linear_combination hcross
    refine abs_sub_le_of_neighbours hcross' h.pos h.pos_semi ((div_le_iff_num h.pos_semi).mpr ?_)
      ((le_div_iff_num h.pos).mpr ?_) (hx.trans_lt h.lt_add)
    · have : r.num * (c.q₀ + k * c.q₁ : ℕ) - (c.p₀ + k * c.p₁) * r.den = n - k * d := by
        rw [← hnum, ← hden]
        push_cast
        linear_combination (n - k * d) * hcross
      linarith
    · have : c.p₁ * r.den - r.num * c.q₁ = d := by
        rw [← hnum, ← hden]
        linear_combination (d : ℤ) * hcross
      linarith
  · have hcross' : (c.p₀ + k * c.p₁) * c.q₁ - c.p₁ * (c.q₀ + k * c.q₁ : ℕ) = 1 := by
      push_cast
      linear_combination hcross
    refine (abs_sub_le_of_neighbours hcross' h.pos_semi h.pos ((div_le_iff_num h.pos).mpr ?_)
      ((le_div_iff_num h.pos_semi).mpr ?_) (hx.trans_lt (h.lt_add.trans_eq (add_comm _ _)))).symm
    · have : r.num * c.q₁ - c.p₁ * r.den = d := by
        rw [← hnum, ← hden]
        linear_combination (d : ℤ) * hcross
      linarith
    · have : (c.p₀ + k * c.p₁) * r.den - r.num * (c.q₀ + k * c.q₁ : ℕ) = n - k * d := by
        rw [← hnum, ← hden]
        push_cast
        linear_combination (n - k * d) * hcross
      linarith

end Closing

end Convergents

variable {bound : ℕ} {r : ℚ}

lemma ratAbs_eq (x : ℚ) : x.abs = |x| := by
  rw [Rat.abs]
  split
  · next h => rw [abs_of_nonneg h]
  · next h => rw [abs_of_neg (not_le.mp h)]

lemma den_mkRat_le (p : ℤ) {q : ℕ} (hq : 0 < q) : (mkRat p q).den ≤ q := by
  rw [Rat.mkRat_eq_div]
  exact Nat.le_of_dvd hq (by exact_mod_cast Rat.den_dvd p q)

/-- The closest fraction is one of the last convergent and the last semiconvergent, the closer one. -/
lemma exists_closing (hbound : 0 < bound) (hr : bound < r.den) :
    ∃ c n d k, Convergents.Closing bound r c n d k ∧ closestFraction bound r =
      if |c.convergent - r| ≤ |c.semiconvergent k - r| then c.convergent else c.semiconvergent k := by
  obtain ⟨n, d, h, hd, h₀, h₁, hnext⟩ :=
    Convergents.exists_last (Convergents.approach_start r) hr hbound bound.zero_le
  refine ⟨_, n, d, _, h.closing hd h₀ h₁ hnext, ?_⟩
  rw [closestFraction, if_neg hr.not_ge]
  simp only [ratAbs_eq]
  rfl

/-- The closest fraction is within the bound, and no fraction within the bound is closer. -/
theorem closestFraction_best (hbound : 0 < bound) (r : ℚ) :
    (closestFraction bound r).den ≤ bound ∧
      ∀ x : ℚ, x.den ≤ bound → |closestFraction bound r - r| ≤ |x - r| := by
  by_cases hr : r.den ≤ bound
  · rw [closestFraction, if_pos hr, sub_self, abs_zero]
    exact ⟨hr, fun x _ => abs_nonneg _⟩
  · obtain ⟨c, n, d, k, h, hclosest⟩ := exists_closing hbound (not_le.mp hr)
    rw [hclosest]
    split
    · next hle =>
      refine ⟨(den_mkRat_le _ h.pos).trans h.le, fun x hx => ?_⟩
      obtain hx | hx := h.abs_sub_le hx
      · exact hx
      · exact hle.trans hx
    · next hlt =>
      refine ⟨(den_mkRat_le _ h.pos_semi).trans h.le_semi, fun x hx => ?_⟩
      obtain hx | hx := h.abs_sub_le hx
      · exact (not_le.mp hlt).le.trans hx
      · exact hx

end Number

end Reckoner
