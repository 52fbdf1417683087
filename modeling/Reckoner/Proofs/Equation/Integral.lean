import Mathlib
import Reckoner.Proofs.Equation.Factored
import Reckoner.Proofs.Equation.Whole

/-!
# Quadratics in whole numbers

For whole coefficients of at most 2^25 nothing is rounded before the last step of each root: the discriminant is
exact (`Integral.numbers`), and so is its root if it is a square. Solving succeeds then, with as many roots as the
polynomial has real ones; for a square discriminant each is the double nearest to the exact root, and if the exact
roots are whole the factored form is a factorization of the polynomial (`solve_integral`).
-/

namespace Reckoner

namespace Quadratic

open Polynomial (C X)
open Number (toRat? round? rounded)
open Linear (Nearest round?_int toRat?_mul_int toRat?_add_int toRat?_sub_int toRat?_neg_int)

/-- A quadratic whose coefficients are whole numbers of at most 2^25. -/
structure Integral (q : Coefficients) (a b c : ℤ) : Prop where
  leading : toRat? q.a = some (a : ℚ)
  linear : toRat? q.b = some (b : ℚ)
  constant : toRat? q.c = some (c : ℚ)
  ne_zero : a ≠ 0
  leading_le : |a| ≤ 2 ^ 25
  linear_le : |b| ≤ 2 ^ 25
  constant_le : |c| ≤ 2 ^ 25

/-- The roots of a quadratic whose discriminant is the square of `d`, the plus root first. -/
def exactRoots (a b d : ℤ) : List ℚ :=
  if d = 0 then [((-b : ℤ) : ℚ) / (2 * a : ℤ)]
  else [((-b + d : ℤ) : ℚ) / (2 * a : ℤ), ((-b - d : ℤ) : ℚ) / (2 * a : ℤ)]

/-- The polynomial that a factored form writes. -/
noncomputable def Reading.polynomial? : Reading → Option (Polynomial ℚ)
  | irreducible => none
  | square leading root => do
    let a ← toRat? leading
    let r ← toRat? root
    return C a * (X - C r) ^ 2
  | product leading first second => do
    let a ← toRat? leading
    let r₁ ← toRat? first
    let r₂ ← toRat? second
    return C a * (X - C r₁) * (X - C r₂)

section Exact

variable {x y : Float} {m n : ℤ}

/-- What a double is for an exact root: no other one is as near, and if the root is whole it is the root. -/
def StandsFor (x : Float) (r : ℚ) : Prop :=
  Nearest x r ∧ ((∃ k : ℤ, r = k) → toRat? x = some r)

lemma standsFor_div (hx : toRat? x = some (m : ℚ)) (hy : toRat? y = some (n : ℚ)) (hm : |m| ≤ 2 ^ 53) (hn : n ≠ 0)
    (hn' : |n| ≤ 2 ^ 53) : StandsFor (x / y) ((m : ℚ) / n) := by
  refine ⟨Linear.nearest_div_int hx hy hm hn hn', ?_⟩
  rintro ⟨k, hk⟩
  exact Linear.toRat?_div_exact hx hy hm hn hk

end Exact

section Real

variable {a b c : ℝ}

lemma realRoots_of_neg (hd : discrim a b c < 0) : {x : ℝ | a * x ^ 2 + b * x + c = 0} = ∅ := by
  ext x
  have hne (s : ℝ) : discrim a b c ≠ s ^ 2 := (hd.trans_le (sq_nonneg s)).ne
  rw [Set.mem_ofPred_eq, sq]
  exact iff_of_false (quadratic_ne_zero_of_discrim_ne_sq hne x) (Set.notMem_empty x)

lemma realRoots_of_eq (ha : a ≠ 0) (hd : discrim a b c = 0) :
    {x : ℝ | a * x ^ 2 + b * x + c = 0} = {-b / (2 * a)} := by
  ext x
  rw [Set.mem_ofPred_eq, sq]
  exact quadratic_eq_zero_iff_of_discrim_eq_zero ha hd x

lemma realRoots_of_pos (ha : a ≠ 0) (hd : 0 < discrim a b c) :
    {x : ℝ | a * x ^ 2 + b * x + c = 0} =
      {(-b + √(discrim a b c)) / (2 * a), (-b - √(discrim a b c)) / (2 * a)} := by
  ext x
  rw [Set.mem_ofPred_eq, sq]
  exact quadratic_eq_zero_iff ha (Real.mul_self_sqrt hd.le).symm x

end Real

namespace Integral

variable {q : Coefficients} {a b c d : ℤ}

lemma abs_products_le (h : Integral q a b c) :
    |4 * a| ≤ 2 ^ 27 ∧ |b * b| ≤ 2 ^ 50 ∧ |4 * a * c| ≤ 2 ^ 52 := by
  have ha : |4 * a| ≤ 2 ^ 27 := by
    rw [abs_mul, abs_of_pos (by norm_num)]
    linarith [h.leading_le]
  refine ⟨ha, ?_, ?_⟩
  · rw [abs_mul]
    exact (mul_le_mul h.linear_le h.linear_le (abs_nonneg b) (by norm_num)).trans (by norm_num)
  · rw [abs_mul]
    exact (mul_le_mul ha h.constant_le (abs_nonneg c) (by norm_num)).trans (by norm_num)

lemma abs_discrim_le (h : Integral q a b c) : |b * b - 4 * a * c| ≤ 2 ^ 53 := by
  obtain ⟨-, hb, hac⟩ := h.abs_products_le
  have htri := abs_sub (b * b) (4 * a * c)
  linarith

/-- The discriminant is exact. -/
theorem numbers (h : Integral q a b c) : Numbers q a b c (discrim a b c : ℤ) := by
  obtain ⟨ha, hb, hac⟩ := h.abs_products_le
  have hfour : toRat? 4 = some ((4 : ℤ) : ℚ) := Number.toRat?_four
  have hsquare := toRat?_mul_int h.linear h.linear (hb.trans (by norm_num))
  have hdouble := toRat?_mul_int hfour h.leading (ha.trans (by norm_num))
  have hproduct := toRat?_mul_int hdouble h.constant (hac.trans (by norm_num))
  refine ⟨h.leading, h.linear, h.constant, ?_, by exact_mod_cast h.ne_zero⟩
  rw [Coefficients.discriminant, toRat?_sub_int hsquare hproduct h.abs_discrim_le, discrim, sq]

lemma toRat?_divisor (h : Integral q a b c) : toRat? (2 * q.a) = some ((2 * a : ℤ) : ℚ) := by
  rw [h.numbers.toRat?_divisor]
  push_cast
  rfl

lemma divisor_ne_zero (h : Integral q a b c) : 2 * a ≠ 0 :=
  mul_ne_zero two_ne_zero h.ne_zero

lemma abs_divisor_le (h : Integral q a b c) : |2 * a| ≤ 2 ^ 53 := by
  rw [abs_mul, abs_of_pos two_pos]
  linarith [h.leading_le]

/-- The root of a square discriminant is exact. -/
lemma toRat?_sqrt (h : Integral q a b c) (hd : 0 ≤ d) (hsq : discrim a b c = d ^ 2) :
    d ≤ 2 ^ 27 ∧ toRat? q.discriminant.sqrt = some (d : ℚ) := by
  have hle : d ≤ 2 ^ 27 := by
    have hbound := (le_abs_self _).trans h.abs_discrim_le
    rw [← sq, ← discrim, hsq] at hbound
    exact (lt_of_pow_lt_pow_left₀ 2 (by norm_num) (hbound.trans_lt (by norm_num))).le
  refine ⟨hle, Number.toRat?_sqrt_sq ?_ ?_ (by exact_mod_cast hd)⟩
  · rw [h.numbers.discriminant, hsq]
    push_cast
    rfl
  · apply Number.isDouble_of_round? (round?_int _)
    rw [abs_of_nonneg hd]
    linarith

lemma abs_numerators_le (h : Integral q a b c) (hd : 0 ≤ d) (hle : d ≤ 2 ^ 27) :
    |-b + d| ≤ 2 ^ 53 ∧ |-b - d| ≤ 2 ^ 53 := by
  obtain ⟨hlow, hhigh⟩ := abs_le.mp h.linear_le
  rw [abs_le, abs_le]
  refine ⟨⟨?_, ?_⟩, ?_, ?_⟩ <;> linarith

/-- The doubles stand for the exact roots in order. -/
theorem standsFor_roots (h : Integral q a b c) (hd : 0 ≤ d) (hsq : discrim a b c = d ^ 2) {roots : List Float}
    (hr : RootsFor q (discrim a b c : ℤ) roots) : List.Forall₂ StandsFor roots (exactRoots a b d) := by
  obtain ⟨hle, hsqrt⟩ := h.toRat?_sqrt hd hsq
  obtain ⟨hplus, hminus⟩ := h.abs_numerators_le hd hle
  have hneg := toRat?_neg_int h.linear
  rw [hsq] at hr
  rw [exactRoots]
  cases hr with
  | none hlt =>
    have hnonneg : (0 : ℚ) ≤ (d ^ 2 : ℤ) := by exact_mod_cast sq_nonneg d
    exact absurd hlt hnonneg.not_gt
  | one hzero =>
    have hd0 : d = 0 := by
      have hsq0 : d ^ 2 = 0 := by exact_mod_cast hzero
      exact pow_eq_zero_iff two_ne_zero |>.mp hsq0
    rw [if_pos hd0]
    rw [hd0, add_zero] at hplus
    exact .cons (standsFor_div hneg h.toRat?_divisor hplus h.divisor_ne_zero h.abs_divisor_le) .nil
  | two hpos =>
    -- Both numerators are exact, so each root is rounded in its division only.
    have hd0 : d ≠ 0 := by
      rintro rfl
      exact absurd hpos (by norm_num)
    rw [if_neg hd0]
    have hfirst := toRat?_add_int hneg hsqrt hplus
    have hsecond := toRat?_sub_int hneg hsqrt hminus
    exact .cons (standsFor_div hfirst h.toRat?_divisor hplus h.divisor_ne_zero h.abs_divisor_le)
      (.cons (standsFor_div hsecond h.toRat?_divisor hminus h.divisor_ne_zero h.abs_divisor_le) .nil)

/-- There are as many doubles as real roots. -/
theorem encard_realRoots (h : Integral q a b c) {roots : List Float} (hr : RootsFor q (discrim a b c : ℤ) roots) :
    {x : ℝ | (a : ℝ) * x ^ 2 + b * x + c = 0}.encard = roots.length := by
  have ha : (a : ℝ) ≠ 0 := by exact_mod_cast h.ne_zero
  have hcast : discrim (a : ℝ) b c = ((discrim a b c : ℤ) : ℝ) := by
    simp only [discrim]
    push_cast
    rfl
  cases hr with
  | none hd =>
    have hneg : discrim (a : ℝ) b c < 0 := by
      rw [hcast]
      exact_mod_cast hd
    rw [realRoots_of_neg hneg, Set.encard_empty]
    rfl
  | one hd =>
    have hzero : discrim (a : ℝ) b c = 0 := by
      rw [hcast]
      exact_mod_cast hd
    rw [realRoots_of_eq ha hzero, Set.encard_singleton]
    rfl
  | two hd =>
    have hpos : 0 < discrim (a : ℝ) b c := by
      rw [hcast]
      exact_mod_cast hd
    have hne : (-b + √(discrim (a : ℝ) b c)) / (2 * a) ≠ (-b - √(discrim (a : ℝ) b c)) / (2 * a) := by
      rw [Ne, div_left_inj' (mul_ne_zero two_ne_zero ha)]
      intro heq
      linarith [Real.sqrt_pos.mpr hpos]
    rw [realRoots_of_pos ha hpos, Set.encard_pair hne]
    rfl

end Integral

section Factorization

variable {a b c d : ℤ}

/-- A product of factors of the two roots is the polynomial, if the roots have its sum and its product. -/
lemma expand {a b c r₁ r₂ : ℚ} (hb : b = -(a * (r₁ + r₂))) (hc : c = a * (r₁ * r₂)) :
    C a * (X - C r₁) * (X - C r₂) = C a * X ^ 2 + C b * X + C c := by
  rw [hb, hc]
  simp only [Polynomial.C_neg, Polynomial.C_mul, Polynomial.C_add]
  ring

/-- The sum and the product of the exact roots. -/
lemma exact_roots_sum_product (ha : a ≠ 0) (hsq : discrim a b c = d ^ 2) :
    (b : ℚ) = -(a * (((-b + d : ℤ) : ℚ) / (2 * a : ℤ) + ((-b - d : ℤ) : ℚ) / (2 * a : ℤ))) ∧
      (c : ℚ) = a * (((-b + d : ℤ) : ℚ) / (2 * a : ℤ) * (((-b - d : ℤ) : ℚ) / (2 * a : ℤ))) := by
  have haq : (a : ℚ) ≠ 0 := by exact_mod_cast ha
  have hdq : (b : ℚ) ^ 2 - 4 * a * c = d ^ 2 := by exact_mod_cast hsq
  push_cast
  constructor
  · field_simp
    ring
  · field_simp
    linear_combination -hdq

/-- A reading of the exact roots is a factorization. -/
theorem polynomial?_of_exact {reading : Reading} (ha : a ≠ 0) (hsq : discrim a b c = d ^ 2)
    (hroots : List.Forall₂ (fun x r => toRat? x = some r) reading.roots (exactRoots a b d))
    (hleading : ∃ x, reading.leading? = some x ∧ toRat? x = some (a : ℚ)) :
    reading.polynomial? = some (C (a : ℚ) * X ^ 2 + C (b : ℚ) * X + C (c : ℚ)) := by
  obtain ⟨hb, hc⟩ := exact_roots_sum_product ha hsq
  obtain ⟨x, hx, hxa⟩ := hleading
  rw [exactRoots] at hroots
  cases reading with
  | irreducible => cases hx
  | square leading root =>
    obtain rfl : leading = x := Option.some_inj.mp hx
    split at hroots
    · next hd =>
      obtain ⟨hroot, -⟩ := List.forall₂_cons.mp hroots
      rw [hd, add_zero, sub_zero] at hb hc
      simp only [Reading.polynomial?, hxa, hroot, Option.bind_eq_bind, Option.bind_some]
      rw [← expand hb hc, sq, ← mul_assoc]
      rfl
    · obtain ⟨-, hnil⟩ := List.forall₂_cons.mp hroots
      cases hnil
  | product leading first second =>
    obtain rfl : leading = x := Option.some_inj.mp hx
    split at hroots
    · obtain ⟨-, hnil⟩ := List.forall₂_cons.mp hroots
      cases hnil
    · obtain ⟨hfirst, hrest⟩ := List.forall₂_cons.mp hroots
      obtain ⟨hsecond, -⟩ := List.forall₂_cons.mp hrest
      simp only [Reading.polynomial?, hxa, hfirst, hsecond, Option.bind_eq_bind, Option.bind_some]
      rw [← expand hb hc]
      rfl

lemma exactRoots_ne_nil (a b d : ℤ) : exactRoots a b d ≠ [] := by
  rw [exactRoots]
  split <;> nofun

/-- What equals doubles that stand for whole roots is these roots. -/
lemma exact_of_beq {xs ys : List Float} {rs : List ℚ} (hxy : List.Forall₂ (fun x y => x == y) xs ys)
    (hyr : List.Forall₂ StandsFor ys rs) (hwhole : ∀ r ∈ rs, ∃ k : ℤ, r = k) :
    List.Forall₂ (fun x r => toRat? x = some r) xs rs := by
  induction hxy generalizing rs with
  | nil =>
    cases hyr
    exact .nil
  | cons hbeq _ ih =>
    cases hyr with
    | cons hstands hrest =>
      obtain ⟨hr, hrs⟩ := List.forall_mem_cons.mp hwhole
      exact .cons (Number.toRat?_of_beq hbeq (hstands.2 hr)) (ih hrest hrs)

end Factorization

/-- On whole coefficients of at most 2^25 solving succeeds. The discriminant is exact, and there are as many roots as
the polynomial has real ones. If the discriminant is a square, the roots are the doubles nearest to the exact ones, in
order; and if these are whole, the factored form is a factorization of the polynomial. -/
theorem solve_integral {q : Coefficients} {a b c : ℤ} (h : Integral q a b c) :
    ∃ solution, solve q = .ok solution ∧
      toRat? solution.discriminant = some ((discrim a b c : ℤ) : ℚ) ∧
      {x : ℝ | (a : ℝ) * x ^ 2 + b * x + c = 0}.encard = solution.roots.length ∧
      ∀ d : ℤ, 0 ≤ d → discrim a b c = d ^ 2 →
        List.Forall₂ Nearest solution.roots (exactRoots a b d) ∧
        ((∀ r ∈ exactRoots a b d, ∃ k : ℤ, r = k) →
          ∃ reading, read? solution.factoredForm.toList = some reading ∧
            reading.polynomial? = some (C (a : ℚ) * X ^ 2 + C (b : ℚ) * X + C (c : ℚ))) := by
  have hn := h.numbers
  obtain ⟨roots, hr⟩ := exists_rootsFor q (discrim a b c : ℤ)
  refine ⟨_, solve_eq_ok_iff.mpr ⟨a, b, c, _, roots, hn, hr, rfl⟩, hn.discriminant, h.encard_realRoots hr, ?_⟩
  intro d hd hsq
  have hstands := h.standsFor_roots hd hsq hr
  refine ⟨hstands.imp fun _ _ hx => hx.1, ?_⟩
  intro hwhole
  obtain ⟨reading, hread, hbeq, hleading⟩ :=
    exists_read? (Number.not_isNaN_of_toRat? h.leading).1 (hn.isNaN hr) hr.length_le
  have hne : roots ≠ [] := by
    rintro rfl
    exact exactRoots_ne_nil a b d (List.forall₂_nil_left_iff.mp hstands)
  obtain ⟨x, hx, hxa⟩ := hleading hne
  refine ⟨reading, hread, polynomial?_of_exact h.ne_zero hsq (exact_of_beq hbeq hstands hwhole) ⟨x, hx, ?_⟩⟩
  exact Number.toRat?_of_beq hxa h.leading

/-- The factored form of -3x^2 + 3x + 6 is a factorization of it. -/
theorem solve_integral_factored : ∃ solution reading, solve ⟨-3, 3, 6⟩ = .ok solution ∧
    read? solution.factoredForm.toList = some reading ∧
    reading.polynomial? = some (C (-3) * X ^ 2 + C 3 * X + C 6) := by
  have h : Integral ⟨-3, 3, 6⟩ (-3) 3 6 :=
    ⟨by decide +kernel, by decide +kernel, by decide +kernel, by decide, by decide, by decide, by decide⟩
  obtain ⟨solution, hsolve, -, -, hsquare⟩ := solve_integral h
  have hwhole : ∀ r ∈ exactRoots (-3) 3 9, ∃ k : ℤ, r = k := by
    rw [exactRoots, if_neg (by decide), List.forall_mem_cons, List.forall_mem_singleton]
    exact ⟨⟨-1, by norm_num⟩, ⟨2, by norm_num⟩⟩
  obtain ⟨reading, hread, hpolynomial⟩ := (hsquare 9 (by norm_num) (by decide)).2 hwhole
  refine ⟨solution, reading, hsolve, hread, ?_⟩
  exact_mod_cast hpolynomial

end Quadratic

end Reckoner
