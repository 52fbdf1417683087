import Mathlib
import Reckoner.Equation.Quadratic
import Reckoner.Proofs.Number.Literal
import Reckoner.Proofs.Number.SquareRoot
import Reckoner.Proofs.Outcome

/-!
# Roots of a quadratic

A quadratic is solved if its coefficients and its discriminant are finite and it has a leading coefficient
(`solve_eq_ok_iff`). That the discriminant is finite bounds what the roots are computed from: twice the leading
coefficient is exact, and the numerators are far below the largest double (`Numbers.toRat?_numerator`). So each
root is the rounded quotient of two finite numbers (`Numbers.roundsTo_root`), from which follow the order of the roots
(`plus_root_first`) and which of them are too big for a double (`roots_finite_iff`).
-/

namespace Reckoner

namespace Quadratic

open Number (toRat? round? rounded IsDouble RoundsTo)
open Outcome (bind_eq_ok)

/-- The coefficients and the discriminant of a quadratic are finite, and there is a leading coefficient. -/
structure Numbers (q : Coefficients) (a b c d : ℚ) : Prop where
  leading : toRat? q.a = some a
  linear : toRat? q.b = some b
  constant : toRat? q.c = some c
  discriminant : toRat? q.discriminant = some d
  ne_zero : a ≠ 0

/-- The numerator of the plus root, or of the minus root. -/
def numerator (q : Coefficients) (minus : Bool) : Float :=
  if minus then -q.b - q.discriminant.sqrt else -q.b + q.discriminant.sqrt

/-- The roots by the sign of the discriminant, the plus root first. -/
inductive RootsFor (q : Coefficients) (d : ℚ) : List Float → Prop
  | none :
    d < 0 →
    RootsFor q d []
  | one :
    d = 0 →
    RootsFor q d [-q.b / (2 * q.a)]
  | two :
    0 < d →
    RootsFor q d [numerator q false / (2 * q.a), numerator q true / (2 * q.a)]

variable {q : Coefficients} {a b c d : ℚ}

lemma RootsFor.length_le {roots : List Float} (h : RootsFor q d roots) : roots.length ≤ 2 := by
  cases h with
  | none => exact Nat.zero_le 2
  | one => exact Nat.one_le_ofNat
  | two => exact le_rfl

lemma exists_rootsFor (q : Coefficients) (d : ℚ) : ∃ roots, RootsFor q d roots := by
  obtain hd | hd | hd := lt_trichotomy d 0
  · exact ⟨_, .none hd⟩
  · exact ⟨_, .one hd⟩
  · exact ⟨_, .two hd⟩

/-- The coefficients pass the check if they are finite and the leading one is not zero. -/
lemma check_eq_ok_iff : q.check = .ok () ↔
    ∃ a b c, toRat? q.a = some a ∧ toRat? q.b = some b ∧ toRat? q.c = some c ∧ a ≠ 0 := by
  rw [Coefficients.check]
  constructor
  · intro h
    split at h
    · next hf =>
      obtain ⟨⟨a, ha⟩, ⟨b, hb⟩, ⟨c, hc⟩⟩ := hf.imp (Number.isFinite_iff _).mp
        (And.imp (Number.isFinite_iff _).mp (Number.isFinite_iff _).mp)
      refine ⟨a, b, c, ha, hb, hc, ?_⟩
      rintro rfl
      rw [Number.beq_eq ha Number.toRat?_zero] at h
      cases h
    · cases h
  · rintro ⟨a, b, c, ha, hb, hc, hne⟩
    have hfinite {x : Float} {r : ℚ} (hx : toRat? x = some r) := (Number.isFinite_iff x).mpr ⟨r, hx⟩
    rw [if_pos ⟨hfinite ha, hfinite hb, hfinite hc⟩, Number.beq_eq ha Number.toRat?_zero, decide_eq_false hne]
    rfl

lemma rootsFor_eq (hd : toRat? q.discriminant = some d) {roots : List Float} (h : RootsFor q d roots) :
    q.rootsFor q.discriminant = .ok roots := by
  have hlt := Number.lt_iff hd Number.toRat?_zero
  have heq := Number.beq_eq hd Number.toRat?_zero
  rw [Coefficients.rootsFor]
  cases h with
  | none hneg => rw [if_pos (hlt.mpr hneg)]
  | one hzero => rw [if_neg (fun h => (hlt.mp h).ne hzero), heq, decide_eq_true hzero, if_pos rfl]
  | two hpos =>
    rw [if_neg (fun h => (hlt.mp h).asymm hpos), heq, decide_eq_false hpos.ne', if_neg Bool.false_ne_true,
      Function.sqrt_apply hd hpos.le]
    rfl

lemma rootsFor_eq_ok_iff (hd : toRat? q.discriminant = some d) {roots : List Float} :
    q.rootsFor q.discriminant = .ok roots ↔ RootsFor q d roots := by
  constructor
  · intro h
    obtain ⟨roots', hr⟩ := exists_rootsFor q d
    rw [rootsFor_eq hd hr, Except.ok.injEq] at h
    rwa [← h]
  · exact rootsFor_eq hd

/-- What it takes to solve a quadratic, and everything that the solution consists of. -/
theorem solve_eq_ok_iff {solution : Solution} :
    solve q = .ok solution ↔ ∃ a b c d roots, Numbers q a b c d ∧ RootsFor q d roots ∧
      solution = ⟨roots, q.discriminant, factoredForm q.a roots, steps q roots⟩ := by
  rw [solve, bind_eq_ok]
  constructor
  · rintro ⟨_, hcheck, h⟩
    obtain ⟨roots, hroots, h⟩ := bind_eq_ok.mp h
    obtain ⟨a, b, c, ha, hb, hc, hne⟩ := check_eq_ok_iff.mp hcheck
    rw [Coefficients.roots] at hroots
    split at hroots
    · next hf =>
      obtain ⟨d, hd⟩ := (Number.isFinite_iff _).mp hf
      exact ⟨a, b, c, d, roots, ⟨ha, hb, hc, hd, hne⟩, (rootsFor_eq_ok_iff hd).mp hroots, (Except.ok.inj h).symm⟩
    · cases hroots
  · rintro ⟨a, b, c, d, roots, hn, hroots, rfl⟩
    have hf := (Number.isFinite_iff _).mpr ⟨d, hn.discriminant⟩
    refine ⟨(), check_eq_ok_iff.mpr ⟨a, b, c, hn.leading, hn.linear, hn.constant, hn.ne_zero⟩, ?_⟩
    rw [Coefficients.roots, if_pos hf, (rootsFor_eq_ok_iff hn.discriminant).mpr hroots]
    rfl

namespace Numbers

/-- The parts of the discriminant are finite, so the linear coefficient is the root of a finite number. -/
lemma abs_linear_lt (h : Numbers q a b c d) : |b| < 2 ^ 512 := by
  obtain ⟨⟨x, hx⟩, -⟩ := Number.exists_of_toRat?_sub h.discriminant
  have hround := (Number.toRat?_mul h.linear h.linear).symm.trans hx
  obtain ⟨rfl, hlt⟩ := Number.round?_eq_some hround
  rw [Number.abs_rounded_lt_iff, abs_mul, ← sq] at hlt
  apply lt_of_pow_lt_pow_left₀ 2 (by positivity)
  calc |b| ^ 2 < 2 ^ 1024 - 2 ^ 970 := hlt
    _ < 2 ^ 1024 := sub_lt_self _ (pow_pos two_pos 970)
    _ = (2 ^ 512) ^ 2 := pow_mul 2 512 2

/-- Four times the leading coefficient is finite, so twice it is exact. -/
lemma toRat?_divisor (h : Numbers q a b c d) : toRat? (2 * q.a) = some (2 * a) := by
  obtain ⟨-, y, hy⟩ := Number.exists_of_toRat?_sub h.discriminant
  obtain ⟨⟨z, hz⟩, -⟩ := Number.exists_of_toRat?_mul hy
  have hround := (Number.toRat?_mul Number.toRat?_four h.leading).symm.trans hz
  obtain ⟨rfl, hlt⟩ := Number.round?_eq_some hround
  have hdouble := Number.rounded_two_mul (Number.isDouble_of_toRat? h.leading)
  have hle : |rounded (2 * a)| ≤ |rounded (4 * a)| := by
    rw [Number.abs_rounded, Number.abs_rounded, abs_mul, abs_mul]
    apply Number.rounded_mono
    apply mul_le_mul_of_nonneg_right _ (abs_nonneg a)
    norm_num
  rw [Number.toRat?_mul Number.toRat?_two h.leading, round?, if_pos (hle.trans_lt hlt), hdouble]

variable {s : ℚ}

/-- The root of the discriminant, if there is one. -/
lemma exists_sqrt (h : Numbers q a b c d) (hd : 0 ≤ d) :
    ∃ s, toRat? q.discriminant.sqrt = some s ∧ 0 ≤ s ∧ |s| ≤ 2 ^ 512 := by
  obtain ⟨s, hs, hnonneg, -⟩ := Number.exists_sqrt h.discriminant hd
  refine ⟨s, hs, hnonneg, ?_⟩
  rw [abs_of_nonneg hnonneg]
  exact Number.sqrt_le h.discriminant hd hs

lemma abs_linear_add_le (h : Numbers q a b c d) (hs : |s| ≤ 2 ^ 512) : |b| + |s| ≤ 2 ^ 513 :=
  calc |b| + |s| ≤ 2 ^ 512 + 2 ^ 512 := add_le_add h.abs_linear_lt.le hs
    _ = 2 ^ 513 := ((pow_succ' 2 512).trans (two_mul _)).symm

/-- The numerators are far below the largest double. -/
theorem toRat?_numerator (h : Numbers q a b c d) (hs : toRat? q.discriminant.sqrt = some s) (hle : |s| ≤ 2 ^ 512)
    (minus : Bool) :
    toRat? (numerator q minus) = some (rounded (if minus then -b - s else -b + s)) := by
  have hbound {r : ℚ} (hr : |r| ≤ |-b| + |s|) : |r| ≤ 2 ^ 1022 := by
    rw [abs_neg] at hr
    exact (hr.trans (h.abs_linear_add_le hle)).trans (pow_le_pow_right₀ one_le_two (by norm_num))
  have hneg := Number.toRat?_neg h.linear
  cases minus with
  | false => exact (Number.toRat?_add hneg hs).trans (Number.round?_of_abs_le (hbound (abs_add_le _ _)))
  | true => exact (Number.toRat?_sub hneg hs).trans (Number.round?_of_abs_le (hbound (abs_sub _ _)))

/-- A root is the rounded quotient of its rounded numerator. -/
theorem roundsTo_root (h : Numbers q a b c d) (hs : toRat? q.discriminant.sqrt = some s) (hle : |s| ≤ 2 ^ 512)
    (minus : Bool) :
    RoundsTo (rounded (if minus then -b - s else -b + s) / (2 * a)) (numerator q minus / (2 * q.a)) :=
  Number.roundsTo_div (h.toRat?_numerator hs hle minus) h.toRat?_divisor (mul_ne_zero two_ne_zero h.ne_zero)

/-- The only root for a discriminant of zero. -/
theorem roundsTo_root_zero (h : Numbers q a b c d) : RoundsTo (-b / (2 * a)) (-q.b / (2 * q.a)) :=
  Number.roundsTo_div (Number.toRat?_neg h.linear) h.toRat?_divisor (mul_ne_zero two_ne_zero h.ne_zero)

/-- There is a solution, and its roots are those for the discriminant. -/
lemma exists_solution (h : Numbers q a b c d) {roots : List Float} (hr : RootsFor q d roots) :
    ∃ solution, solve q = .ok solution ∧ solution.roots = roots :=
  ⟨_, solve_eq_ok_iff.mpr ⟨a, b, c, d, roots, h, hr, rfl⟩, rfl⟩

end Numbers

variable {solution : Solution}

/-- The plus root is never below the minus root if the leading coefficient is positive, and never above it if that is
negative. Both are numbers or infinities, and nothing is divided by zero. -/
theorem plus_root_first {r₁ r₂ : Float} (h : solve q = .ok solution) (hr : solution.roots = [r₁, r₂]) :
    r₁.isNaN = false ∧ r₂.isNaN = false ∧ (2 * q.a == 0) = false ∧ (0 < q.a → r₂ ≤ r₁) ∧ (q.a < 0 → r₁ ≤ r₂) := by
  obtain ⟨a, b, c, d, roots, hn, hroots, rfl⟩ := solve_eq_ok_iff.mp h
  change roots = [r₁, r₂] at hr
  subst hr
  cases hroots with
  | two hd =>
    obtain ⟨s, hs, hnonneg, hle⟩ := hn.exists_sqrt hd.le
    have hplus := hn.roundsTo_root hs hle false
    have hminus := hn.roundsTo_root hs hle true
    have hnumerators : rounded (-b - s) ≤ rounded (-b + s) := Number.rounded_mono (by linarith)
    refine ⟨hplus.isNaN, hminus.isNaN, Number.two_mul_beq_zero hn.leading hn.ne_zero, ?_, ?_⟩
    · intro ha
      rw [Number.lt_iff Number.toRat?_zero hn.leading] at ha
      exact hminus.le hplus (div_le_div_of_nonneg_right hnumerators (by linarith))
    · intro ha
      rw [Number.lt_iff hn.leading Number.toRat?_zero] at ha
      exact hplus.le hminus (div_le_div_of_nonpos_of_le (by linarith) hnumerators)

/-- The order does not depend on the roots being finite: here the minus root is infinite. -/
theorem plus_root_first_infinite : ∃ solution r₁ r₂, solve ⟨-1e-320, 1, 0⟩ = .ok solution ∧
    solution.roots = [r₁, r₂] ∧ r₁ ≤ r₂ ∧ r₂.isInf = true := by
  have hn : Numbers ⟨-1e-320, 1, 0⟩ (-(253 / 2 ^ 1071)) 1 0 1 := by
    refine ⟨by decide +kernel, by decide +kernel, by decide +kernel, by decide +kernel, ?_⟩
    exact neg_ne_zero.mpr (div_ne_zero (by norm_num) (pow_pos two_pos 1071).ne')
  obtain ⟨solution, hsolve, hr⟩ := hn.exists_solution (.two one_pos)
  have hneg : (-1e-320 : Float) < 0 := by decide +kernel
  obtain ⟨-, -, -, -, horder⟩ := plus_root_first hsolve hr
  exact ⟨solution, _, _, hsolve, hr, horder hneg, by decide +kernel⟩

/-- A numerator is too big for the divisor: the quotient is at least half a place above the largest double. -/
def Overflows (q : Coefficients) : Prop :=
  ¬q.discriminant < 0 ∧ ∃ a b s, toRat? q.a = some a ∧ toRat? q.b = some b ∧ toRat? q.discriminant.sqrt = some s ∧
    (2 ^ 1024 - 2 ^ 970) * |2 * a| ≤ rounded (|b| + s)

namespace Numbers

variable {s : ℚ}

lemma discriminant_lt_iff (h : Numbers q a b c d) : q.discriminant < 0 ↔ d < 0 :=
  Number.lt_iff h.discriminant Number.toRat?_zero

lemma overflows_iff (h : Numbers q a b c d) (hs : toRat? q.discriminant.sqrt = some s) (hd : 0 ≤ d) :
    Overflows q ↔ (2 ^ 1024 - 2 ^ 970) * |2 * a| ≤ rounded (|b| + s) := by
  constructor
  · rintro ⟨-, a', b', s', ha, hb, hs', hle⟩
    obtain rfl := Option.some_inj.mp (ha.symm.trans h.leading)
    obtain rfl := Option.some_inj.mp (hb.symm.trans h.linear)
    obtain rfl := Option.some_inj.mp (hs'.symm.trans hs)
    exact hle
  · intro hle
    exact ⟨fun hneg => absurd (h.discriminant_lt_iff.mp hneg) hd.not_gt, a, b, s, h.leading, h.linear, hs, hle⟩

lemma isFinite_iff {x : Float} {r : ℚ} (h : Numbers q a b c d) (hx : RoundsTo (r / (2 * a)) x) :
    x.isFinite = true ↔ |r| < (2 ^ 1024 - 2 ^ 970) * |2 * a| := by
  have hpos : 0 < |2 * a| := abs_pos.mpr (mul_ne_zero two_ne_zero h.ne_zero)
  rw [hx.isFinite_iff, abs_div, div_lt_iff₀ hpos]

/-- The larger of the two numerators has both sizes added up. -/
lemma larger_numerator {limit : ℚ} (hs : 0 ≤ s) :
    |rounded (-b + s)| < limit ∧ |rounded (-b - s)| < limit ↔ rounded (|b| + s) < limit := by
  rw [Number.abs_rounded, Number.abs_rounded]
  -- The sign of the linear coefficient tells which numerator is the larger one.
  obtain hb | hb := le_total 0 b
  · have hlarge : |-b - s| = |b| + s := by
      rw [abs_of_nonpos (by linarith), abs_of_nonneg hb]
      ring
    have hsmall : |-b + s| ≤ |b| + s := by
      rw [abs_of_nonneg hb, abs_le]
      constructor <;> linarith
    rw [hlarge]
    exact and_iff_right_of_imp (Number.rounded_mono hsmall).trans_lt
  · have hlarge : |-b + s| = |b| + s := by
      rw [abs_of_nonneg (by linarith), abs_of_nonpos hb]
    have hsmall : |-b - s| ≤ |b| + s := by
      rw [abs_of_nonpos hb, abs_le]
      constructor <;> linarith
    rw [hlarge]
    exact and_iff_left_of_imp (Number.rounded_mono hsmall).trans_lt

/-- No root is NaN. -/
theorem isNaN (h : Numbers q a b c d) {roots : List Float} (hr : RootsFor q d roots) :
    ∀ r ∈ roots, r.isNaN = false := by
  cases hr with
  | none => exact List.forall_mem_nil _
  | one => exact List.forall_mem_singleton.mpr h.roundsTo_root_zero.isNaN
  | two hd =>
    obtain ⟨s, hs, -, hle⟩ := h.exists_sqrt hd.le
    rw [List.forall_mem_cons, List.forall_mem_singleton]
    exact ⟨(h.roundsTo_root hs hle false).isNaN, (h.roundsTo_root hs hle true).isNaN⟩

/-- All roots are finite unless a numerator is too big for the divisor. -/
theorem finite_iff (h : Numbers q a b c d) {roots : List Float} (hr : RootsFor q d roots) :
    (∀ r ∈ roots, r.isFinite = true) ↔ ¬Overflows q := by
  cases hr with
  | none hd =>
    have hnone : ¬Overflows q := fun hover => hover.1 (h.discriminant_lt_iff.mpr hd)
    exact iff_of_true (List.forall_mem_nil _) hnone
  | one hd =>
    -- With a square root of zero both numerators are the one of the only root.
    have hs : toRat? q.discriminant.sqrt = some 0 := by
      have hsq : toRat? q.discriminant = some (0 ^ 2) := by rw [h.discriminant, hd, zero_pow two_ne_zero]
      exact Number.toRat?_sqrt_sq hsq (Number.isDouble_of_toRat? Number.toRat?_zero) le_rfl
    have hb : rounded |b| = |b| := by
      rw [← Number.abs_rounded, Number.rounded_of_isDouble (Number.isDouble_of_toRat? h.linear)]
    rw [List.forall_mem_singleton, h.isFinite_iff h.roundsTo_root_zero, h.overflows_iff hs hd.ge, abs_neg, add_zero,
      hb, not_le]
  | two hd =>
    obtain ⟨s, hs, hnonneg, hle⟩ := h.exists_sqrt hd.le
    rw [List.forall_mem_cons, List.forall_mem_singleton, h.isFinite_iff (h.roundsTo_root hs hle false),
      h.isFinite_iff (h.roundsTo_root hs hle true), h.overflows_iff hs hd.le, not_le]
    exact larger_numerator hnonneg

/-- From 2^-511 on no leading coefficient is too small for a numerator of 2^513. -/
lemma lt_limit_mul (ha : 2 ^ (-511 : ℤ) ≤ |a|) : 2 ^ 513 < (2 ^ 1024 - 2 ^ 970) * |2 * a| := by
  have hunit : (0 : ℚ) < 2 ^ 970 := pow_pos two_pos 970
  have hdigits : (0 : ℚ) ≤ 2 ^ 54 - 1 := by norm_num
  have hlimit : (2 : ℚ) ^ 1024 - 2 ^ 970 = (2 ^ 54 - 1) * 2 ^ 970 := by
    rw [Number.two_pow_largest.1, sub_one_mul]
  have hproduct : (2 : ℚ) ^ 970 * 2 ^ (-511 : ℤ) = 2 ^ 459 := Number.two_pow_mul_zpow 970 (-511)
  calc (2 : ℚ) ^ 513 = 2 ^ 54 * 2 ^ 459 := pow_add 2 54 459
    _ < (2 ^ 54 - 1) * 2 * 2 ^ 459 := mul_lt_mul_of_pos_right (by norm_num) (pow_pos two_pos 459)
    _ = (2 ^ 54 - 1) * 2 ^ 970 * (2 * 2 ^ (-511 : ℤ)) := by rw [← hproduct, mul_mul_mul_comm]
    _ ≤ (2 ^ 54 - 1) * 2 ^ 970 * |2 * a| := by
      apply mul_le_mul_of_nonneg_left _ (mul_nonneg hdigits hunit.le)
      rw [abs_mul, abs_of_pos two_pos]
      exact mul_le_mul_of_nonneg_left ha two_pos.le
    _ = (2 ^ 1024 - 2 ^ 970) * |2 * a| := by rw [hlimit]

theorem not_overflows (h : Numbers q a b c d) (ha : 2 ^ (-511 : ℤ) ≤ |a|) : ¬Overflows q := by
  intro hover
  have hd : 0 ≤ d := not_lt.mp (fun hneg => hover.1 (h.discriminant_lt_iff.mpr hneg))
  obtain ⟨s, hs, hnonneg, hle⟩ := h.exists_sqrt hd
  have hhigh := Number.rounded_mono (h.abs_linear_add_le hle)
  rw [abs_of_nonneg hnonneg, Number.rounded_of_isDouble (Number.isDouble_two_pow (by norm_num))] at hhigh
  exact absurd ((h.overflows_iff hs hd).mp hover) (not_le.mpr (hhigh.trans_lt (lt_limit_mul ha)))

end Numbers

/-- No root is NaN. All roots are finite unless a numerator is too big for the divisor, which takes a leading
coefficient below 2^-511. -/
theorem roots_finite_iff (h : solve q = .ok solution) :
    (∀ r ∈ solution.roots, r.isNaN = false) ∧
      ((∀ r ∈ solution.roots, r.isFinite = true) ↔ ¬Overflows q) ∧
      ((∃ a, toRat? q.a = some a ∧ 2 ^ (-511 : ℤ) ≤ |a|) → ∀ r ∈ solution.roots, r.isFinite = true) := by
  obtain ⟨a, b, c, d, roots, hn, hroots, rfl⟩ := solve_eq_ok_iff.mp h
  refine ⟨hn.isNaN hroots, hn.finite_iff hroots, ?_⟩
  rintro ⟨a', ha', hle⟩
  obtain rfl := Option.some_inj.mp (ha'.symm.trans hn.leading)
  exact (hn.finite_iff hroots).mpr (hn.not_overflows hle)

/-- The quadratic x^2 - 5x + 6 has finite roots. -/
theorem roots_finite_iff_six : ∃ solution, solve ⟨1, -5, 6⟩ = .ok solution ∧
    ∀ r ∈ solution.roots, r.isFinite = true := by
  have hn : Numbers ⟨1, -5, 6⟩ 1 (-5) 6 1 :=
    ⟨by decide +kernel, by decide +kernel, by decide +kernel, by decide +kernel, one_ne_zero⟩
  obtain ⟨solution, hsolve, -⟩ := hn.exists_solution (.two one_pos)
  refine ⟨solution, hsolve, (roots_finite_iff hsolve).2.2 ⟨1, hn.leading, ?_⟩⟩
  rw [abs_one]
  exact zpow_le_one_of_nonpos₀ one_le_two (by norm_num)

/-- With a leading coefficient of 1e-320 the minus root is infinite. -/
theorem solve_infinite_root : ∃ solution, solve ⟨1e-320, 1, 0⟩ = .ok solution ∧
    ∃ r ∈ solution.roots, r.isFinite = false := by
  have hn : Numbers ⟨1e-320, 1, 0⟩ (253 / 2 ^ 1071) 1 0 1 := by
    refine ⟨by decide +kernel, by decide +kernel, by decide +kernel, by decide +kernel, ?_⟩
    exact div_ne_zero (by norm_num) (pow_pos two_pos 1071).ne'
  obtain ⟨solution, hsolve, hr⟩ := hn.exists_solution (.two one_pos)
  refine ⟨solution, hsolve, ?_⟩
  rw [hr]
  exact ⟨_, List.mem_cons_of_mem _ List.mem_cons_self, by decide +kernel⟩

end Quadratic

end Reckoner
