import Mathlib
import Reckoner.Proofs.Equation.Ruling

/-!
# Linear equations in whole numbers

As long as all numbers of an equation are whole and add up to at most 2^53, nothing is rounded before the last
step: each partial sum is a whole number that a double holds (`exactly_total`), and the quotient is rounded once.
So the answer is the solution set of the equation over the reals (`solve_whole`), the solution being the double
nearest to it, and the order of the terms has no influence.
-/

namespace Reckoner

namespace Linear

open Number (toRat? round? isNegative)

def Literal.exact (l : Literal) : ℚ :=
  l.numeral.exact

/-- The number that a term without its signs writes. -/
def Body.exact : Body → ℚ
  | .number l => l.exact
  | .bare => 1
  | .multiple l _ => l.exact

/-- The number that a term writes. -/
def SignedTerm.exact (t : SignedTerm) : ℚ :=
  if t.negative then -t.body.exact else t.body.exact

def RightSide.exact (right : RightSide) : ℚ :=
  if right.sign = some '-' then -right.literal.exact else right.literal.exact

/-- What a term is worth for a real number in place of the variable. -/
noncomputable def SignedTerm.at (t : SignedTerm) (x : ℝ) : ℝ :=
  if t.body.hasVariable then t.exact * x else t.exact

/-- The equation is satisfied by a real number. -/
def Holds (left : LeftSide) (right : RightSide) (x : ℝ) : Prop :=
  (left.terms.map (·.at x)).sum = right.exact

/-- The numbers of an equation are whole and add up to no more than doubles hold one by one. -/
structure Whole (left : LeftSide) (right : RightSide) : Prop where
  terms : ∀ t ∈ left.terms, ∃ n : ℕ, t.body.exact = n
  number : ∃ n : ℕ, right.literal.exact = n
  bound : (left.terms.map (·.body.exact)).sum + right.literal.exact ≤ 2 ^ 53

/-- A double is nearer to a number than every other finite double. -/
def Nearest (x : Float) (q : ℚ) : Prop :=
  ∃ d, toRat? x = some d ∧ ∀ y e, toRat? y = some e → e ≠ d → |d - q| < |e - q|

/-- A double that is a whole number, and not minus zero. -/
structure Exactly (x : Float) (k : ℤ) : Prop where
  value : toRat? x = some (k : ℚ)
  plus : k = 0 → isNegative x = false

lemma Exactly.unique {x y : Float} {k : ℤ} (hx : Exactly x k) (hy : Exactly y k) : x = y := by
  by_cases hk : k = 0
  · have hzero {z : Float} (hz : Exactly z k) : z = 0 := by
      apply Number.eq_zero_of_toRat? _ (hz.plus hk)
      rw [hz.value, hk, Int.cast_zero]
    rw [hzero hx, hzero hy]
  · exact Number.eq_of_toRat? hx.value hy.value (by exact_mod_cast hk)

lemma exactly_zero : Exactly 0 0 :=
  ⟨by rw [Number.toRat?_zero, Int.cast_zero], fun _ => rfl⟩

/-- Whole numbers up to 2^53 are doubles. -/
lemma round?_int {k : ℤ} (hk : |k| ≤ 2 ^ 53) : round? (k : ℚ) = some (k : ℚ) := by
  have h := Number.isDouble_of_digits (e := 0) hk (by norm_num) (by norm_num)
  rw [zpow_zero, mul_one] at h
  exact Number.round?_of_isDouble h

section Arithmetic

variable {x y : Float} {m n : ℤ}

lemma toRat?_mul_int (hx : toRat? x = some (m : ℚ)) (hy : toRat? y = some (n : ℚ)) (hle : |m * n| ≤ 2 ^ 53) :
    toRat? (x * y) = some ((m * n : ℤ) : ℚ) := by
  rw [Number.toRat?_mul hx hy, ← Int.cast_mul, round?_int hle]

lemma toRat?_add_int (hx : toRat? x = some (m : ℚ)) (hy : toRat? y = some (n : ℚ)) (hle : |m + n| ≤ 2 ^ 53) :
    toRat? (x + y) = some ((m + n : ℤ) : ℚ) := by
  rw [Number.toRat?_add hx hy, ← Int.cast_add, round?_int hle]

lemma toRat?_sub_int (hx : toRat? x = some (m : ℚ)) (hy : toRat? y = some (n : ℚ)) (hle : |m - n| ≤ 2 ^ 53) :
    toRat? (x - y) = some ((m - n : ℤ) : ℚ) := by
  rw [Number.toRat?_sub hx hy, ← Int.cast_sub, round?_int hle]

lemma toRat?_neg_int (hx : toRat? x = some (m : ℚ)) : toRat? (-x) = some ((-m : ℤ) : ℚ) := by
  rw [Number.toRat?_neg hx, Int.cast_neg]

/-- The quotient of whole numbers is rounded once. -/
lemma toRat?_div_int (hx : toRat? x = some (m : ℚ)) (hy : toRat? y = some (n : ℚ)) (hm : |m| ≤ 2 ^ 53)
    (hn : n ≠ 0) : toRat? (x / y) = some (Number.rounded ((m : ℚ) / n)) := by
  have hone : (1 : ℚ) ≤ |(n : ℚ)| := by exact_mod_cast Int.one_le_abs hn
  have hle : |(m : ℚ)| ≤ 2 ^ 53 := by exact_mod_cast hm
  rw [Number.toRat?_div hx hy (by exact_mod_cast hn)]
  apply Number.round?_of_abs_le
  rw [abs_div]
  calc |(m : ℚ)| / |(n : ℚ)| ≤ |(m : ℚ)| := div_le_self (abs_nonneg _) hone
    _ ≤ 2 ^ 53 := hle
    _ ≤ 2 ^ 1022 := pow_le_pow_right₀ (by norm_num) (by norm_num)

/-- A quotient that is whole is exact. -/
lemma toRat?_div_exact (hx : toRat? x = some (m : ℚ)) (hy : toRat? y = some (n : ℚ)) (hm : |m| ≤ 2 ^ 53)
    (hn : n ≠ 0) {k : ℤ} (hk : (m : ℚ) / n = k) : toRat? (x / y) = some ((m : ℚ) / n) := by
  have hproduct : m = k * n := by
    rw [div_eq_iff (by exact_mod_cast hn)] at hk
    exact_mod_cast hk
  have hle : |k| ≤ 2 ^ 53 := by
    rw [hproduct, abs_mul] at hm
    exact (le_mul_of_one_le_right (abs_nonneg k) (Int.one_le_abs hn)).trans hm
  rw [toRat?_div_int hx hy hm hn, hk, Number.rounded_of_isDouble (Number.isDouble_of_round? (round?_int hle))]

/-- No other double is as near to the quotient. -/
theorem nearest_div_int (hx : toRat? x = some (m : ℚ)) (hy : toRat? y = some (n : ℚ)) (hm : |m| ≤ 2 ^ 53)
    (hn : n ≠ 0) (hn' : |n| ≤ 2 ^ 53) : Nearest (x / y) ((m : ℚ) / n) := by
  refine ⟨_, toRat?_div_int hx hy hm hn, ?_⟩
  intro z e hz hne
  exact Number.abs_rounded_sub_lt (Number.not_halfway hm hn hn') (Number.isDouble_of_toRat? hz) hne

end Arithmetic

/-- The sum of whole numbers is exact as long as it is no more than 2^53. -/
lemma Exactly.add {x y : Float} {k z : ℤ} (hx : Exactly x k) (hy : toRat? y = some (z : ℚ))
    (hle : |k + z| ≤ 2 ^ 53) : Exactly (x + y) (k + z) := by
  refine ⟨toRat?_add_int hx.value hy hle, ?_⟩
  intro hzero
  apply Number.isNegative_add hx.value hy
  · exact_mod_cast hzero
  · intro hk
    exact hx.plus (by exact_mod_cast hk)

section Terms

variable {t : SignedTerm} {ts : List SignedTerm}

/-- The number of a term in whole numbers. -/
lemma toRat?_size {n : ℕ} (h : t.body.exact = n) (hn : n ≤ 2 ^ 53) :
    toRat? t.body.size = some (n : ℚ) := by
  have hround : round? (n : ℚ) = some (n : ℚ) := Number.round?_of_isDouble (Number.isDouble_natCast hn)
  obtain ⟨signs, body, hs⟩ := t
  cases body with
  | number l =>
    refine (Numeral.toRat?_value l.numeral).trans ?_
    change round? (Literal.exact l) = _
    rw [show Literal.exact l = n from h, hround]
  | bare =>
    have hone : (n : ℚ) = 1 := h.symm
    rw [hone]
    exact Number.toRat?_one
  | multiple l starred =>
    refine (Numeral.toRat?_value l.numeral).trans ?_
    change round? (Literal.exact l) = _
    rw [show Literal.exact l = n from h, hround]

lemma exists_value {n : ℕ} (h : t.body.exact = n) (hn : n ≤ 2 ^ 53) :
    ∃ z : ℤ, toRat? t.value = some (z : ℚ) ∧ t.exact = z ∧ |z| = n := by
  have hsize := toRat?_size h hn
  rw [SignedTerm.value, SignedTerm.exact, h]
  split
  · refine ⟨-n, ?_, by push_cast; rfl, by rw [abs_neg, Nat.abs_cast]⟩
    rw [Number.toRat?_neg hsize]
    push_cast
    rfl
  · exact ⟨n, by rw [hsize, Int.cast_natCast], by rw [Int.cast_natCast], Nat.abs_cast n⟩

lemma sum_size_nonneg (hw : ∀ t ∈ ts, ∃ n : ℕ, t.body.exact = n) :
    0 ≤ (ts.map (·.body.exact)).sum := by
  apply List.sum_nonneg
  intro q hq
  obtain ⟨t, ht, rfl⟩ := List.mem_map.mp hq
  obtain ⟨n, hn⟩ := hw t ht
  rw [hn]
  exact n.cast_nonneg

/-- Every partial sum is exact. -/
theorem exactly_total {x : Float} {k : ℤ} (hx : Exactly x k)
    (hw : ∀ t ∈ ts, ∃ n : ℕ, t.body.exact = n)
    (hle : |(k : ℚ)| + (ts.map (·.body.exact)).sum ≤ 2 ^ 53) :
    ∃ j : ℤ, Exactly (total x ts) j ∧ (j : ℚ) = k + (ts.map SignedTerm.exact).sum ∧
      |(j : ℚ)| ≤ |(k : ℚ)| + (ts.map (·.body.exact)).sum := by
  induction ts generalizing x k with
  | nil => exact ⟨k, hx, by simp, by simp⟩
  | cons t ts ih =>
    obtain ⟨⟨n, hn⟩, hts⟩ := List.forall_mem_cons.mp hw
    have hrest := sum_size_nonneg hts
    rw [List.map_cons, List.sum_cons, hn] at hle
    have hnle : (n : ℚ) ≤ (2 ^ 53 : ℕ) := by
      push_cast
      linarith [abs_nonneg (k : ℚ)]
    obtain ⟨z, hz, hexact, habs⟩ := exists_value hn (by exact_mod_cast hnle)
    have hzn : |(z : ℚ)| = n := by exact_mod_cast habs
    have hadd : |((k + z : ℤ) : ℚ)| ≤ |(k : ℚ)| + n := by
      rw [← hzn]
      push_cast
      exact abs_add_le _ _
    have hbound : |((k + z : ℤ) : ℚ)| ≤ 2 ^ 53 := by linarith
    obtain ⟨j, hj, hjsum, hjabs⟩ := ih (hx.add hz (by exact_mod_cast hbound)) hts (by linarith)
    refine ⟨j, hj, ?_, ?_⟩
    · rw [hjsum, List.map_cons, List.sum_cons, hexact]
      push_cast
      ring
    · rw [List.map_cons, List.sum_cons, hn]
      linarith

/-- The two kinds of terms together are all terms. -/
lemma sum_filter (f : SignedTerm → ℚ) (p : SignedTerm → Bool) (ts : List SignedTerm) :
    ((ts.filter p).map f).sum + ((ts.filter (!p ·)).map f).sum = (ts.map f).sum := by
  rw [← List.sum_append, ← List.map_append]
  exact ((List.filter_append_perm p ts).map f).sum_eq

/-- A left side is linear in what stands for the variable. -/
lemma sum_at (ts : List SignedTerm) (x : ℝ) :
    (ts.map (·.at x)).sum =
      (((ts.filter (·.body.hasVariable)).map SignedTerm.exact).sum : ℚ) * x +
        (((ts.filter (!·.body.hasVariable)).map SignedTerm.exact).sum : ℚ) := by
  induction ts with
  | nil => simp
  | cons t ts ih =>
    rw [List.map_cons, List.sum_cons, ih, SignedTerm.at]
    cases hv : t.body.hasVariable
    · simp [hv]
      ring
    · simp [hv]
      ring

end Terms

section Equation

variable {left : LeftSide} {right : RightSide}

/-- The coefficient, the constant and the right side of an equation in whole numbers. -/
structure Sums (left : LeftSide) (right : RightSide) (a b c : ℤ) : Prop where
  coefficient : Exactly left.coefficient a
  constant : Exactly left.constant b
  number : toRat? right.value = some (c : ℚ)
  bound : |a| + |b| + |c| ≤ 2 ^ 53
  holds : ∀ x, Holds left right x ↔ (a : ℝ) * x + b = c

lemma Whole.sum_nonneg (h : Whole left right) {ts : List SignedTerm} (hts : ts ⊆ left.terms) :
    0 ≤ (ts.map (·.body.exact)).sum :=
  sum_size_nonneg fun t ht => h.terms t (hts ht)

lemma Whole.right_nonneg (h : Whole left right) : 0 ≤ right.literal.exact := by
  obtain ⟨n, hn⟩ := h.number
  rw [hn]
  exact n.cast_nonneg

/-- Each number by itself is within the bound. -/
lemma Whole.size_le (h : Whole left right) {t : SignedTerm} (ht : t ∈ left.terms) :
    t.body.exact ≤ 2 ^ 53 := by
  have hle : t.body.exact ≤ (left.terms.map (·.body.exact)).sum := by
    apply List.single_le_sum
    · intro q hq
      obtain ⟨u, hu, rfl⟩ := List.mem_map.mp hq
      obtain ⟨n, hn⟩ := h.terms u hu
      rw [hn]
      exact n.cast_nonneg
    · exact List.mem_map_of_mem ht
  linarith [h.bound, h.right_nonneg]

lemma Whole.right_le (h : Whole left right) : right.literal.exact ≤ 2 ^ 53 := by
  linarith [h.bound, h.sum_nonneg (List.Subset.refl left.terms)]

lemma Whole.toRat?_literal (h : Whole left right) :
    toRat? right.literal.value = some right.literal.exact := by
  obtain ⟨n, hn⟩ := h.number
  have hle := h.right_le
  refine (Numeral.toRat?_value right.literal.numeral).trans ?_
  change round? (Literal.exact right.literal) = _
  rw [hn] at hle ⊢
  exact Number.round?_of_isDouble (Number.isDouble_natCast (by exact_mod_cast hle))

lemma Whole.exists_right (h : Whole left right) :
    ∃ c : ℤ, toRat? right.value = some (c : ℚ) ∧ right.exact = c ∧
      |(c : ℚ)| = right.literal.exact := by
  obtain ⟨n, hn⟩ := h.number
  have hvalue := h.toRat?_literal
  rw [RightSide.value, RightSide.exact]
  rw [hn] at hvalue ⊢
  split
  · refine ⟨-n, ?_, by push_cast; rfl, by push_cast; rw [abs_neg, Nat.abs_cast]⟩
    rw [Number.toRat?_neg hvalue]
    push_cast
    rfl
  · refine ⟨n, ?_, by push_cast; rfl, by push_cast; rw [Nat.abs_cast]⟩
    rw [hvalue]
    push_cast
    rfl

/-- The sum over the terms of one kind. -/
lemma Whole.exists_total (h : Whole left right) (p : SignedTerm → Bool) :
    ∃ j : ℤ, Exactly (total 0 (left.terms.filter p)) j ∧
      (j : ℚ) = ((left.terms.filter p).map SignedTerm.exact).sum ∧
      |(j : ℚ)| ≤ ((left.terms.filter p).map (·.body.exact)).sum := by
  have hw : ∀ t ∈ left.terms.filter p, ∃ n : ℕ, t.body.exact = n :=
    fun t ht => h.terms t (List.mem_of_mem_filter ht)
  have hsplit := sum_filter (·.body.exact) p left.terms
  have hothers := h.sum_nonneg (List.filter_subset_self left.terms (p := fun t => !p t))
  have hle : |((0 : ℤ) : ℚ)| + ((left.terms.filter p).map (·.body.exact)).sum ≤ 2 ^ 53 := by
    rw [Int.cast_zero, abs_zero]
    linarith [h.bound, h.right_nonneg]
  obtain ⟨j, hj, hsum, habs⟩ := exactly_total exactly_zero hw hle
  rw [Int.cast_zero, zero_add] at hsum
  rw [Int.cast_zero, abs_zero, zero_add] at habs
  exact ⟨j, hj, hsum, habs⟩

/-- An equation in whole numbers is computed without rounding. -/
theorem Whole.exists_sums (h : Whole left right) : ∃ a b c, Sums left right a b c := by
  have hsplit := sum_filter (·.body.exact) (·.body.hasVariable) left.terms
  have hbound := h.bound
  obtain ⟨a, ha, hasum, haabs⟩ := h.exists_total (·.body.hasVariable)
  obtain ⟨b, hb, hbsum, hbabs⟩ := h.exists_total (!·.body.hasVariable)
  obtain ⟨c, hc, hcval, hcabs⟩ := h.exists_right
  refine ⟨a, b, c, ha, hb, hc, ?_, ?_⟩
  · have : |(a : ℚ)| + |(b : ℚ)| + |(c : ℚ)| ≤ 2 ^ 53 := by linarith
    exact_mod_cast this
  · intro x
    rw [Holds, sum_at, ← hasum, ← hbsum, hcval, Rat.cast_intCast, Rat.cast_intCast, Rat.cast_intCast]

/-- The value of an equation in its three numbers. -/
def answer (a b c : Float) : Float :=
  if a == 0 then
    if b == c then 1 / 0 else 0 / 0
  else (c - b) / a

variable {a b c : ℤ}

lemma Sums.abs_difference_le (h : Sums left right a b c) : |c - b| ≤ 2 ^ 53 := by
  have hbound := h.bound
  have htri := abs_sub c b
  have ha := abs_nonneg a
  omega

lemma Sums.toRat?_difference (h : Sums left right a b c) :
    toRat? (difference left right) = some ((c - b : ℤ) : ℚ) :=
  toRat?_sub_int h.number h.constant.value h.abs_difference_le

lemma Sums.coefficient_beq (h : Sums left right a b c) :
    (left.coefficient == 0) = decide (a = 0) := by
  rw [Number.beq_eq h.coefficient.value Number.toRat?_zero]
  simp

lemma Sums.constant_beq (h : Sums left right a b c) :
    (left.constant == right.value) = decide (b = c) := by
  rw [Number.beq_eq h.constant.value h.number]
  simp

/-- The quotient is rounded once. -/
lemma Sums.toRat?_quotient (h : Sums left right a b c) (ha : a ≠ 0) :
    toRat? (difference left right / left.coefficient) =
      some (Number.rounded (((c - b : ℤ) : ℚ) / a)) :=
  toRat?_div_int h.toRat?_difference h.coefficient.value h.abs_difference_le ha

/-- No other double is as near to the solution. -/
lemma Sums.nearest (h : Sums left right a b c) (ha : a ≠ 0) :
    Nearest (difference left right / left.coefficient) (((c - b : ℤ) : ℚ) / a) := by
  have haq : |a| ≤ 2 ^ 53 := by
    have := h.bound
    have := abs_nonneg b
    have := abs_nonneg c
    omega
  exact nearest_div_int h.toRat?_difference h.coefficient.value h.abs_difference_le ha haq

/-- The numbers are all finite. -/
lemma Whole.measured (h : Whole left right) : Measured left right := by
  obtain ⟨a, b, c, hs⟩ := h.exists_sums
  refine ⟨?_, ?_, ?_, ?_⟩
  · intro t ht
    obtain ⟨n, hn⟩ := h.terms t ht
    have hle := h.size_le ht
    rw [hn] at hle
    exact (Number.isFinite_iff _).mpr ⟨_, toRat?_size hn (by exact_mod_cast hle)⟩
  · exact (Number.isFinite_iff _).mpr ⟨_, h.toRat?_literal⟩
  · exact (Number.isFinite_iff _).mpr ⟨_, hs.coefficient.value⟩
  · exact (Number.isFinite_iff _).mpr ⟨_, hs.constant.value⟩

/-- An equation in whole numbers has a value. -/
theorem worth_of_whole {text : String} (hw : Written text.toList left right) (h : Whole left right) :
    worth (solve text) = .ok (answer left.coefficient left.constant right.value) := by
  obtain ⟨a, b, c, hs⟩ := h.exists_sums
  have hd : (difference left right).isFinite := (Number.isFinite_iff _).mpr ⟨_, hs.toRat?_difference⟩
  rw [answer]
  split
  · next ha =>
    split
    · next hb => exact worth_of_ruling (.identity hw h.measured hd ha hb)
    · next hb => exact worth_of_ruling (.contradiction hw h.measured hd ha hb)
  · next ha =>
    have hne : a ≠ 0 := by
      rw [hs.coefficient_beq] at ha
      simpa using ha
    exact worth_of_ruling (.solved hw h.measured hd ha
      ((Number.isFinite_iff _).mpr ⟨_, hs.toRat?_quotient hne⟩))

end Equation

section Order

variable {ts us : List SignedTerm}

lemma Literal.eq_of_text {l l' : Literal} (h : l.text = l'.text) : l = l' := by
  obtain ⟨s, n, hs⟩ := l
  obtain ⟨s', n', hs'⟩ := l'
  obtain rfl : s = s' := h
  have := (Numeral.ofChars?_eq_some_iff.mpr hs).symm.trans (Numeral.ofChars?_eq_some_iff.mpr hs')
  obtain rfl := Option.some_inj.mp this
  rfl

/-- What is read of a term determines its number. -/
lemma exact_of_parts {b b' : Body} (h : b.parts = b'.parts) :
    b.exact = b'.exact ∧ b.hasVariable = b'.hasVariable := by
  have literal {l l' : Literal} (hl : some l.text = some l'.text) : l.exact = l'.exact := by
    rw [Literal.eq_of_text (Option.some_inj.mp hl)]
  cases b with
  | number l =>
    cases b' with
    | number l' => exact ⟨literal (congrArg Prod.fst h), rfl⟩
    | bare => cases congrArg Prod.snd h
    | multiple l' starred => cases congrArg Prod.snd h
  | bare =>
    cases b' with
    | number l' => cases congrArg Prod.snd h
    | bare => exact ⟨rfl, rfl⟩
    | multiple l' starred => cases congrArg Prod.fst h
  | multiple l starred =>
    cases b' with
    | number l' => cases congrArg Prod.snd h
    | bare => cases congrArg Prod.fst h
    | multiple l' starred' => exact ⟨literal (congrArg Prod.fst h), rfl⟩

lemma exact_of_term {t u : SignedTerm} (h : t.term = u.term) :
    t.body.exact = u.body.exact ∧ t.body.hasVariable = u.body.hasVariable ∧ t.exact = u.exact := by
  obtain ⟨hexact, hvar⟩ := exact_of_parts (Prod.ext (congrArg Term.numeral h) (congrArg Term.hasVariable h))
  have hneg : t.negative = u.negative := congrArg Term.negative h
  exact ⟨hexact, hvar, by rw [SignedTerm.exact, SignedTerm.exact, hexact, hneg]⟩

/-- A sum over terms does not depend on their order. -/
lemma sum_eq_of_perm {f : SignedTerm → ℚ} (hf : ∀ t u, t.term = u.term → f t = f u)
    (h : (ts.map SignedTerm.term).Perm (us.map SignedTerm.term)) :
    (ts.map f).sum = (us.map f).sum := by
  have hfactor : Function.FactorsThrough f SignedTerm.term := fun t u => hf t u
  have hmap (vs : List SignedTerm) :
      vs.map f = (vs.map SignedTerm.term).map (Function.extend SignedTerm.term f 0) := by
    rw [List.map_map]
    apply List.map_congr_left
    intro t ht
    exact (hfactor.extend_apply 0 t).symm
  rw [hmap, hmap]
  exact (h.map _).sum_eq

/-- The sum over the terms of one kind, as a sum over all terms. -/
lemma sum_filter_eq (p : SignedTerm → Bool) (ts : List SignedTerm) :
    ((ts.filter p).map SignedTerm.exact).sum =
      (ts.map fun t => if p t then t.exact else 0).sum := by
  induction ts with
  | nil => rfl
  | cons t ts ih =>
    rw [List.map_cons, List.sum_cons, ← ih]
    cases hp : p t with
    | true => rw [List.filter_cons_of_pos hp, List.map_cons, List.sum_cons, if_pos rfl]
    | false => rw [List.filter_cons_of_neg (by simp [hp]), if_neg Bool.false_ne_true, zero_add]

variable {left left' : LeftSide} {right : RightSide}

lemma Whole.of_perm (h : Whole left right)
    (hperm : (left'.terms.map SignedTerm.term).Perm (left.terms.map SignedTerm.term)) :
    Whole left' right := by
  refine ⟨?_, h.number, ?_⟩
  · intro t ht
    obtain ⟨u, hu, hterm⟩ := List.mem_map.mp (hperm.mem_iff.mp (List.mem_map_of_mem ht))
    obtain ⟨n, hn⟩ := h.terms u hu
    exact ⟨n, by rw [← (exact_of_term hterm).1, hn]⟩
  · rw [sum_eq_of_perm (fun t u htu => (exact_of_term htu).1) hperm]
    exact h.bound

/-- A sum of doubles over whole terms does not depend on their order, to the last bit. -/
lemma total_of_perm (h : Whole left right)
    (hperm : (left'.terms.map SignedTerm.term).Perm (left.terms.map SignedTerm.term))
    {p : SignedTerm → Bool} (hp : ∀ t u, t.term = u.term → p t = p u) :
    total 0 (left'.terms.filter p) = total 0 (left.terms.filter p) := by
  obtain ⟨j, hj, hsum, -⟩ := h.exists_total p
  obtain ⟨j', hj', hsum', -⟩ := (h.of_perm hperm).exists_total p
  have hsame : (j' : ℚ) = j := by
    rw [hsum, hsum', sum_filter_eq, sum_filter_eq]
    apply sum_eq_of_perm _ hperm
    intro t u htu
    rw [hp t u htu, (exact_of_term htu).2.2]
  obtain rfl : j' = j := by exact_mod_cast hsame
  exact hj'.unique hj

/-- The two sums do not depend on the order of the terms. -/
theorem sums_of_perm (h : Whole left right)
    (hperm : (left'.terms.map SignedTerm.term).Perm (left.terms.map SignedTerm.term)) :
    left'.coefficient = left.coefficient ∧ left'.constant = left.constant := by
  constructor
  · exact total_of_perm h hperm fun t u htu => (exact_of_term htu).2.1
  · exact total_of_perm h hperm fun t u htu => congrArg not (exact_of_term htu).2.1

end Order

lemma exists_solution {text : String} {x : Float} (h : worth (solve text) = .ok x) :
    ∃ solution, solve text = .ok solution ∧ solution.value = x := by
  cases hs : solve text with
  | ok solution =>
    rw [hs] at h
    exact ⟨solution, rfl, Except.ok.inj h⟩
  | error failure =>
    rw [hs] at h
    cases h

/-- A finite value is neither that of an identity nor that of a contradiction. -/
lemma ne_of_toRat? {x : Float} {q : ℚ} (h : toRat? x = some q) : x ≠ 1 / 0 ∧ x ≠ 0 / 0 := by
  constructor
  · rintro rfl
    rw [Number.toRat?_eq, unpack_identity] at h
    cases h
  · rintro rfl
    rw [Number.toRat?_eq, unpack_contradiction] at h
    cases h

lemma identity_ne_contradiction : (1 / 0 : Float) ≠ 0 / 0 := by
  intro h
  have hu := congrArg (fun x : Float => x.toModel.unpack) h
  simp only [unpack_identity, unpack_contradiction] at hu
  cases hu

/-- The value of an equation in whole numbers says what its solutions are. -/
lemma Sums.answer_spec {left : LeftSide} {right : RightSide} {a b c : ℤ} (h : Sums left right a b c) :
    (answer left.coefficient left.constant right.value = 1 / 0 ↔ ∀ x, Holds left right x) ∧
      (answer left.coefficient left.constant right.value = 0 / 0 ↔ ∀ x, ¬Holds left right x) ∧
      ((∃ x, Holds left right x) → (∃ x, ¬Holds left right x) →
        ∃ q : ℚ, (∀ x, Holds left right x ↔ x = q) ∧
          Nearest (answer left.coefficient left.constant right.value) q) := by
  rw [answer, h.coefficient_beq, h.constant_beq]
  simp only [h.holds, decide_eq_true_iff]
  by_cases ha : a = 0
  · subst ha
    by_cases hb : b = c
    · subst hb
      simp [identity_ne_contradiction]
    · have hbc : (b : ℝ) ≠ c := by exact_mod_cast hb
      simp [hb, hbc, identity_ne_contradiction.symm]
  · rw [if_neg ha]
    obtain ⟨hinfinite, hnan⟩ := ne_of_toRat? (h.toRat?_quotient ha)
    have har : (a : ℝ) ≠ 0 := by exact_mod_cast ha
    have hroot (x : ℝ) : (a : ℝ) * x + b = c ↔ x = (((c - b : ℤ) / a : ℚ) : ℝ) := by
      push_cast
      rw [eq_div_iff har, eq_sub_iff_add_eq, mul_comm]
    simp only [hroot]
    refine ⟨⟨fun he => absurd he hinfinite, ?_⟩, ⟨fun he => absurd he hnan, ?_⟩, ?_⟩
    · -- The number one above the solution is no solution.
      intro hall
      have := hall ((((c - b : ℤ) / a : ℚ) : ℝ) + 1)
      linarith
    · intro hnone
      exact absurd rfl (hnone _)
    · intro _ _
      exact ⟨_, fun x => Iff.rfl, h.nearest ha⟩

/-- On an equation in whole numbers solving succeeds. The value is infinite if every real number satisfies the
equation and no number if none does; otherwise it is the double nearest to the only solution. The order
of the terms on the left does not change it. -/
theorem solve_whole {text : String} {left : LeftSide} {right : RightSide}
    (hw : Written text.toList left right) (h : Whole left right) :
    ∃ solution, solve text = .ok solution ∧
      (solution.value = 1 / 0 ↔ ∀ x, Holds left right x) ∧
      (solution.value = 0 / 0 ↔ ∀ x, ¬Holds left right x) ∧
      ((∃ x, Holds left right x) → (∃ x, ¬Holds left right x) →
        ∃ q : ℚ, (∀ x, Holds left right x ↔ x = q) ∧ Nearest solution.value q) ∧
      ∀ (text' : String) (left' : LeftSide), Written text'.toList left' right →
        (left'.terms.map SignedTerm.term).Perm (left.terms.map SignedTerm.term) →
        ∃ solution', solve text' = .ok solution' ∧ solution'.value = solution.value := by
  obtain ⟨a, b, c, hs⟩ := h.exists_sums
  obtain ⟨hall, hnone, hone⟩ := hs.answer_spec
  obtain ⟨solution, hsolve, hvalue⟩ := exists_solution (worth_of_whole hw h)
  rw [← hvalue] at hall hnone hone
  refine ⟨solution, hsolve, hall, hnone, hone, ?_⟩
  intro text' left' hw' hperm
  obtain ⟨solution', hsolve', hvalue'⟩ := exists_solution (worth_of_whole hw' (h.of_perm hperm))
  obtain ⟨hcoefficient, hconstant⟩ := sums_of_perm h hperm
  refine ⟨solution', hsolve', ?_⟩
  rw [hvalue', hvalue, hcoefficient, hconstant]

/-- A number written in digits only. -/
def Literal.ofDigits (s : List Char) (hs : s ≠ []) (hd : ∀ c ∈ s, c.isDigit) : Literal :=
  ⟨s, ⟨s, []⟩, .whole hs hd⟩

lemma Literal.exact_ofDigits (s : List Char) (hs : s ≠ []) (hd : ∀ c ∈ s, c.isDigit) :
    (Literal.ofDigits s hs hd).exact = (Text.natOfDigits s : ℚ) := by
  simp [Literal.exact, Literal.ofDigits, Numeral.exact]

theorem solve_whole_two_thirds :
    ∃ solution, solve "3x - 1 = 1" = .ok solution ∧ Nearest solution.value (2 / 3) := by
  let three := Literal.ofDigits ['3'] (by simp) (by simp)
  let one := Literal.ofDigits ['1'] (by simp) (by simp)
  let left : LeftSide :=
    ⟨⟨[], .multiple three false, by simp⟩, [⟨['-'], .number one, by simp [isSign]⟩], by simp⟩
  let right : RightSide := ⟨none, one, by simp⟩
  have hthree : three.exact = 3 := Literal.exact_ofDigits _ _ _
  have hone : one.exact = 1 := Literal.exact_ofDigits _ _ _
  have hw : Written "3x - 1 = 1".toList left right :=
    .mk (l := "3x - 1 ".toList) (r := " 1".toList) ⟨rfl, by decide, by decide⟩ rfl rfl
  have hwhole : Whole left right := by
    refine ⟨List.forall_mem_cons.mpr ⟨⟨3, hthree⟩, ?_⟩, ⟨1, by exact_mod_cast hone⟩, ?_⟩
    · exact List.forall_mem_singleton.mpr ⟨1, by exact_mod_cast hone⟩
    · change three.exact + (one.exact + 0) + one.exact ≤ 2 ^ 53
      rw [hthree, hone]
      norm_num
  have hholds (x : ℝ) : Holds left right x ↔ 3 * x - 1 = 1 := by
    change (three.exact : ℝ) * x + (((-one.exact : ℚ) : ℝ) + 0) = (one.exact : ℝ) ↔ _
    rw [hthree, hone]
    push_cast
    rw [add_zero, ← sub_eq_add_neg]
  obtain ⟨solution, hsolve, -, -, hroot, -⟩ := solve_whole hw hwhole
  obtain ⟨q, hq, hnear⟩ := hroot ⟨2 / 3, (hholds _).mpr (by norm_num)⟩
    ⟨0, fun h => by have := (hholds _).mp h; norm_num at this⟩
  have hthird : ((2 / 3 : ℚ) : ℝ) = q := (hq _).mp ((hholds _).mpr (by norm_num))
  have hq : q = 2 / 3 := by exact_mod_cast hthird.symm
  exact ⟨solution, hsolve, hq ▸ hnear⟩

end Linear

end Reckoner
