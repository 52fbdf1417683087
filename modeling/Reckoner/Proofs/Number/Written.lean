import Mathlib
import Reckoner.Number.Text
import Reckoner.Proofs.Number.Literal

/-!
# Written numbers

Digits denote the number they were made from (`natOfDigits_digitsOfNat`). The decimal that is chosen for a double
reads back as the double (`toRat?_shortest`): on the grids that are tried it is only taken if it does, and the last
resort is the exact value. How a decimal is laid out is told by its `Figures`, digits before and after a point and
an exponent, and these denote the decimal (`exists_figures`). Whoever reads a double therefore only has to find its
figures (`exists_figures_text`).
-/

namespace Reckoner

namespace Text

lemma natOfDigits_eq (s : List Char) : natOfDigits s = Nat.ofDigitChars 10 s 0 :=
  Nat.ofDigitChars_eq_foldl.symm

/-- The digits of a number denote it. -/
@[simp] theorem natOfDigits_digitsOfNat (n : ℕ) : natOfDigits (digitsOfNat n) = n := by
  rw [natOfDigits_eq, digitsOfNat]
  exact Nat.ofDigitChars_ten_toDigits

lemma natOfDigits_append (s t : List Char) :
    natOfDigits (s ++ t) = natOfDigits s * 10 ^ t.length + natOfDigits t := by
  rw [natOfDigits_eq, natOfDigits_eq, natOfDigits_eq, Nat.ofDigitChars_append,
    Nat.ofDigitChars_eq_ofDigitChars_zero, mul_comm]

@[simp] lemma natOfDigits_zeros (k : ℕ) : natOfDigits (List.replicate k '0') = 0 := by
  rw [natOfDigits_eq, Nat.ofDigitChars_replicate_zero, mul_zero]

lemma isDigit_digitsOfNat {n : ℕ} {c : Char} (h : c ∈ digitsOfNat n) : c.isDigit = true :=
  Nat.isDigit_of_mem_toDigits (by norm_num) le_rfl h

lemma digitsOfNat_ne_nil (n : ℕ) : digitsOfNat n ≠ [] :=
  Nat.toDigits_ne_nil

/-- A number other than zero is not written with a leading zero. -/
lemma head?_digitsOfNat {n : ℕ} (h : 0 < n) : (digitsOfNat n).head? ≠ some '0' := by
  induction n using Nat.strong_induction_on with
  | _ n ih =>
    rw [digitsOfNat, Nat.toDigits_eq_if (by norm_num)]
    split
    · next hlt =>
      rw [List.head?_cons]
      interval_cases n <;> decide
    · next hle =>
      have hpos : 0 < n / 10 := Nat.div_pos (not_lt.mp hle) (by norm_num)
      rw [List.head?_append_of_ne_nil _ Nat.toDigits_ne_nil]
      exact ih _ (Nat.div_lt_self h (by norm_num)) hpos

lemma isDigit_zeros {k : ℕ} {c : Char} (h : c ∈ List.replicate k '0') : c.isDigit = true := by
  rw [List.eq_of_mem_replicate h]
  rfl

end Text

namespace Number

/-- A number in scientific form is read as the nearest double. -/
lemma toRat?_scientific (m : ℕ) (power : ℤ) :
    toRat? (Float.ofScientific m (power < 0) power.natAbs) = round? (m * 10 ^ power) := by
  rw [toRat?_ofScientific]
  congr 1
  by_cases h : power < 0
  · obtain ⟨k, rfl⟩ := Int.exists_eq_neg_ofNat (a := power) h.le
    rw [if_pos (decide_eq_true h), Int.natAbs_neg, Int.natAbs_natCast, zpow_neg, zpow_natCast, div_eq_mul_inv]
  · obtain ⟨k, rfl⟩ := Int.eq_ofNat_of_zero_le (not_lt.mp h)
    rw [if_neg (by simp), Int.natAbs_natCast, zpow_natCast]

section Sign

open Float.Model (UnpackedFloat)
open Float.Model.UnpackedFloat (Sign)

variable {x y : Float} {a : ℚ}

lemma unpack_abs (x : Float) : x.abs.toModel.unpack = x.toModel.unpack.abs := by
  have hc : Canonical x.toModel.unpack.abs := by
    have h := canonical_unpack x.toModel
    cases hu : x.toModel.unpack <;> rw [hu] at h <;> exact h
  exact unpack_pack hc

/-- The sign and the size of a number other than zero. -/
lemma exists_signed (ha : toRat? x = some a) (hne : a ≠ 0) :
    ∃ s r, 0 < r ∧ a = signed s r ∧ toRat? x.abs = some r ∧ (isNegative x = true ↔ s = .negative) := by
  rw [toRat?_eq] at ha
  obtain ⟨s, -, rfl⟩ | ⟨s, m, e, hm, hu, rfl⟩ := cases_of_exactly? ha
  · exact absurd rfl hne
  · refine ⟨s, m * 2 ^ e, size_pos e hm, rfl, ?_, ?_⟩
    · rw [toRat?_eq, unpack_abs, hu]
      rfl
    · rw [isNegative, hu]
      cases s <;> simp

/-- A double is told by its sign and its size. -/
theorem eq_of_abs (ha : toRat? x = some a) (hne : a ≠ 0) (hy : toRat? y = toRat? x.abs) :
    (if isNegative x then -y else y) = x := by
  obtain ⟨s, r, hr, rfl, habs, hs⟩ := exists_signed ha hne
  rw [habs] at hy
  cases s with
  | negative =>
    rw [if_pos (hs.mpr rfl)]
    exact eq_of_toRat? (toRat?_neg hy) ha hne
  | positive =>
    rw [if_neg (fun h => Sign.noConfusion (hs.mp h))]
    exact eq_of_toRat? hy ha hne

/-- A zero is told by its sign. -/
lemma eq_of_zero (ha : toRat? x = some 0) : (if isNegative x then -(0 : Float) else 0) = x := by
  obtain ⟨s, hs⟩ := unpack_of_zero ha
  apply eq_of_unpack_eq
  rw [hs]
  cases s with
  | negative =>
    rw [if_pos (by rw [isNegative, hs])]
    rfl
  | positive =>
    rw [if_neg (by rw [isNegative, hs]; simp)]
    rfl

end Sign

/-- What equals a finite double is the same number. -/
lemma toRat?_of_beq {x y : Float} {a : ℚ} (h : (y == x) = true) (ha : toRat? x = some a) :
    toRat? y = some a := by
  cases hy : toRat? y with
  | some b =>
    rw [beq_eq hy ha, decide_eq_true_iff] at h
    rw [h]
  | none =>
    change (Float.Model.UnpackedFloat.compare y.toModel.unpack x.toModel.unpack == some .eq) = true at h
    rw [toRat?_eq] at ha hy
    generalize x.toModel.unpack = u at h ha
    generalize y.toModel.unpack = v at h hy
    cases v with
    | infinity s =>
      obtain ⟨_, rfl, -⟩ | ⟨_, _, _, _, rfl, -⟩ := cases_of_exactly? ha
      · cases s <;> simp [Float.Model.UnpackedFloat.compare] at h
      · cases s <;> simp [Float.Model.UnpackedFloat.compare] at h
    | notANumber => cases h
    | zero s => cases hy
    | finite s m e hm => cases hy

/-- The denominator of a double is a power of two. -/
lemma exists_den_eq {r : ℚ} (h : IsDouble r) : ∃ k, r.den = 2 ^ k := by
  obtain ⟨n, e, rfl, -, -, -⟩ := h
  by_cases he : 0 ≤ e
  · obtain ⟨j, rfl⟩ := Int.eq_ofNat_of_zero_le he
    refine ⟨0, ?_⟩
    have : (n : ℚ) * 2 ^ (j : ℤ) = ((n * 2 ^ j : ℤ) : ℚ) := by push_cast; rfl
    rw [this, Rat.den_intCast, pow_zero]
  · obtain ⟨j, rfl⟩ := Int.exists_eq_neg_ofNat (not_le.mp he).le
    have hdiv : (n : ℚ) * 2 ^ (-(j : ℤ)) = (n : ℚ) / ((2 ^ j : ℤ) : ℚ) := by
      rw [zpow_neg, zpow_natCast, div_eq_mul_inv]
      push_cast
      rfl
    have hdvd : ((n : ℚ) * 2 ^ (-(j : ℤ))).den ∣ 2 ^ j := by
      rw [hdiv]
      exact_mod_cast Rat.den_dvd n (2 ^ j)
    obtain ⟨k, -, hk⟩ := (Nat.dvd_prime_pow Nat.prime_two).mp hdvd
    exact ⟨k, hk⟩

end Number

namespace Decimal

open Number (toRat? round? IsDouble)

variable {d : Decimal} {x : Float} {r : ℚ}

/-- A decimal is read as the nearest double. -/
theorem toRat?_toFloat (d : Decimal) : toRat? d.toFloat = round? d.toRat :=
  Number.toRat?_scientific d.digits d.exponent

lemma digits_pos (h : 0 < d.toRat) : 0 < d.digits := by
  rcases Nat.eq_zero_or_pos d.digits with hz | hpos
  · rw [toRat, hz, Nat.cast_zero, zero_mul] at h
    exact absurd h (lt_irrefl 0)
  · exact hpos

/-- Moving trailing zeros into the exponent keeps the number. -/
lemma toRat_strip (d : Decimal) : d.strip.toRat = d.toRat := by
  induction d using strip.induct with
  | case1 d h ih =>
    rw [strip, dif_pos h, ih, toRat, toRat]
    have hd : (d.digits : ℚ) = (d.digits / 10 : ℕ) * 10 := by
      exact_mod_cast (Nat.div_mul_cancel (Nat.dvd_of_mod_eq_zero h.2)).symm
    rw [hd, zpow_add_one₀ (by norm_num)]
    ring
  | case2 d h => rw [strip, dif_neg h]

/-- The last resort is the exact value. -/
lemma toRat_ofDyadic (h : IsDouble r) (hr : 0 < r) : (ofDyadic r).toRat = r := by
  obtain ⟨k, hk⟩ := Number.exists_den_eq h
  have hint : r * (10 : ℚ) ^ (k : ℤ) = ((r.num * 5 ^ k : ℤ) : ℚ) := by
    have hten : (10 : ℚ) ^ k = 2 ^ k * 5 ^ k := by
      rw [← mul_pow]
      norm_num
    have hnum : r * 2 ^ k = r.num := by
      have := Rat.mul_den_eq_num r
      rwa [hk, Nat.cast_pow, Nat.cast_ofNat] at this
    rw [zpow_natCast, hten, ← mul_assoc, hnum]
    push_cast
    rfl
  have hpos : 0 ≤ r.num * 5 ^ k := mul_nonneg (Rat.num_pos.mpr hr).le (by positivity)
  rw [ofDyadic, toRat, hk, Nat.log2_two_pow]
  simp only [hint, Rat.num_intCast]
  rw [← Int.cast_natCast (R := ℚ), Int.natAbs_of_nonneg hpos, ← hint, mul_assoc,
    ← zpow_add₀ (by norm_num), add_neg_cancel, zpow_zero, mul_one]

/-- The decimal chosen for a double reads back as the double. -/
theorem toRat?_shortest (hx : toRat? x = some r) (hr : 0 < r) : round? (shortest x).toRat = some r := by
  have hdouble := Number.isDouble_of_toRat? hx
  have hvalue : Number.toRat x = r := by rw [Number.toRat, hx, Option.getD_some]
  rw [shortest, toRat_strip, hvalue]
  generalize hf : (List.range 17).findSome? _ = found
  cases found with
  | none => rw [Option.getD_none, toRat_ofDyadic hdouble hr, Number.round?_of_isDouble hdouble]
  | some d =>
    obtain ⟨n, -, hn⟩ := List.exists_of_findSome?_eq_some hf
    rw [onGrid?] at hn
    have hbeq := List.find?_some hn
    rw [Option.getD_some, ← toRat?_toFloat]
    exact Number.toRat?_of_beq hbeq hx

lemma digits_shortest_pos (hx : toRat? x = some r) (hr : 0 < r) : 0 < (shortest x).digits := by
  have h := toRat?_shortest hx hr
  apply digits_pos
  have hnonneg : 0 ≤ (shortest x).toRat := mul_nonneg (Nat.cast_nonneg _) (zpow_nonneg (by norm_num) _)
  refine lt_of_le_of_ne hnonneg fun hz => ?_
  rw [← hz, Number.round?_zero, Option.some_inj] at h
  exact hr.ne h

end Decimal

/-- The digits of a written double before and after its point, and its exponent. There is no leading zero but a
single one, and something tells it from a whole number. -/
structure Figures where
  whole : List Char
  fraction : List Char
  exponent : Option Int
  whole_ne_nil : whole ≠ []
  isDigit_whole : ∀ c ∈ whole, c.isDigit = true
  isDigit_fraction : ∀ c ∈ fraction, c.isDigit = true
  leading : whole = ['0'] ∨ whole.head? ≠ some '0'
  not_whole : fraction = [] → exponent ≠ none

namespace Figures

/-- The digits of an exponent, two of them at least. -/
def exponentDigits (n : Int) : List Char :=
  List.replicate (2 - (Text.digitsOfNat n.natAbs).length) '0' ++ Text.digitsOfNat n.natAbs

lemma natOfDigits_exponentDigits (n : Int) : Text.natOfDigits (exponentDigits n) = n.natAbs := by
  rw [exponentDigits, Text.natOfDigits_append, Text.natOfDigits_zeros, Text.natOfDigits_digitsOfNat,
    zero_mul, zero_add]

lemma isDigit_exponentDigits (n : Int) : ∀ c ∈ exponentDigits n, c.isDigit = true :=
  List.forall_mem_append.mpr ⟨fun _ => Text.isDigit_zeros, fun _ => Text.isDigit_digitsOfNat⟩

lemma exponentDigits_ne_nil (n : Int) : exponentDigits n ≠ [] := by
  simp [exponentDigits, Text.digitsOfNat_ne_nil]

/-- An exponent with its sign, behind the letter for it. -/
def exponentText : Option Int → List Char
  | none => []
  | some n => 'e' :: (if n < 0 then '-' else '+') :: exponentDigits n

/-- The digits after the point, behind the point; no digits, no point. -/
def fractionText (fraction : List Char) : List Char :=
  if fraction = [] then [] else '.' :: fraction

/-- No digit follows the digits before the point, as long as none follows the fraction. -/
lemma head?_fractionText {fraction after : List Char} (ha : ∀ c ∈ after.head?, c.isDigit = false) :
    ∀ c ∈ (fractionText fraction ++ after).head?, c.isDigit = false := by
  rw [fractionText]
  split
  · exact ha
  · intro c hc
    obtain rfl : '.' = c := Option.some.inj hc
    decide

/-- The figures as they are written. -/
def text (f : Figures) : List Char :=
  f.whole ++ (fractionText f.fraction ++ exponentText f.exponent)

/-- The power of ten that the digits count. -/
def power (f : Figures) : Int :=
  f.exponent.getD 0 - f.fraction.length

/-- The number that the figures denote. -/
def value (f : Figures) : ℚ :=
  Text.natOfDigits (f.whole ++ f.fraction) * 10 ^ f.power

/-- The double that the figures are read as. -/
def size (f : Figures) : Float :=
  Float.ofScientific (Text.natOfDigits (f.whole ++ f.fraction)) (f.power < 0) f.power.natAbs

lemma toRat?_size (f : Figures) : Number.toRat? f.size = Number.round? f.value :=
  Number.toRat?_scientific _ _

/-- How zero is written. -/
def zero : Figures :=
  ⟨['0'], ['0'], none, by simp, by simp, by simp, .inl rfl, by simp⟩

lemma size_zero : zero.size = 0 := by
  decide +kernel

end Figures

namespace Decimal

open Text (digitsOfNat natOfDigits natOfDigits_append)

variable {d : Decimal}

/-- A decimal below one: zeros come after the point. -/
lemma exists_figures_small {k : ℕ} (hk : ((digitsOfNat d.digits).length : ℤ) + d.exponent = -k) :
    ∃ f : Figures, f.text = '0' :: '.' :: (List.replicate k '0' ++ digitsOfNat d.digits) ∧ f.value = d.toRat ∧
      f.power = d.exponent := by
  let s := digitsOfNat d.digits
  have hne : List.replicate k '0' ++ s ≠ [] := by simp [s, Text.digitsOfNat_ne_nil]
  have hdigits : ∀ c ∈ List.replicate k '0' ++ s, c.isDigit = true :=
    List.forall_mem_append.mpr ⟨fun c => Text.isDigit_zeros, fun c => Text.isDigit_digitsOfNat⟩
  have hpower : (0 : ℤ) - (List.replicate k '0' ++ s).length = d.exponent := by
    simp only [List.length_append, List.length_replicate, s]
    omega
  refine ⟨⟨['0'], List.replicate k '0' ++ s, none, by simp, by simp, hdigits, .inl rfl,
    fun h => absurd h hne⟩, ?_, ?_, hpower⟩
  · simp [Figures.text, Figures.fractionText, Figures.exponentText, s, Text.digitsOfNat_ne_nil]
  · have hzeros : '0' :: (List.replicate k '0' ++ s) = List.replicate (k + 1) '0' ++ s := by
      rw [List.replicate_succ, List.cons_append]
    simp only [Figures.value, Figures.power, Option.getD_none, hpower, List.singleton_append, hzeros,
      natOfDigits_append, Text.natOfDigits_zeros, zero_mul, zero_add, s, Text.natOfDigits_digitsOfNat, toRat]

/-- A decimal with its point between two digits. -/
lemma exists_figures_between {k : ℕ} (hd : 0 < d.digits) (hk : 0 < k) (hlt : k < (digitsOfNat d.digits).length)
    (he : ((digitsOfNat d.digits).length : ℤ) + d.exponent = k) :
    ∃ f : Figures, f.text = (digitsOfNat d.digits).take k ++ '.' :: (digitsOfNat d.digits).drop k ∧
      f.value = d.toRat ∧ f.power = d.exponent := by
  have hvalue := Text.natOfDigits_digitsOfNat d.digits
  generalize hs : digitsOfNat d.digits = s at hlt he hvalue
  have hdigits : ∀ c ∈ s, c.isDigit = true := fun c hc => Text.isDigit_digitsOfNat (hs ▸ hc)
  have hhead : s.head? ≠ some '0' := hs ▸ Text.head?_digitsOfNat hd
  have hdrop : s.drop k ≠ [] := by simpa using hlt
  have hpower : (0 : ℤ) - (s.drop k).length = d.exponent := by
    rw [List.length_drop]
    omega
  refine ⟨⟨s.take k, s.drop k, none, ?_, fun c hc => hdigits c (List.mem_of_mem_take hc),
    fun c hc => hdigits c (List.mem_of_mem_drop hc), .inr ?_, fun h => absurd h hdrop⟩, ?_, ?_, hpower⟩
  · intro h
    rcases List.take_eq_nil_iff.mp h with h | rfl
    · omega
    · exact absurd hlt (by simp)
  · rwa [List.head?_take, if_neg (by omega)]
  · simp [Figures.text, Figures.fractionText, Figures.exponentText, hdrop]
  · simp only [Figures.value, Figures.power, Option.getD_none, hpower, List.take_append_drop, hvalue, toRat]

/-- A whole decimal: zeros come before the point. -/
lemma exists_figures_whole {k : ℕ} (hd : 0 < d.digits) (he : d.exponent = k) :
    ∃ f : Figures, f.text = digitsOfNat d.digits ++ List.replicate k '0' ++ ['.', '0'] ∧ f.value = d.toRat := by
  let s := digitsOfNat d.digits
  have hdigits : ∀ c ∈ s ++ List.replicate k '0', c.isDigit = true :=
    List.forall_mem_append.mpr ⟨fun c => Text.isDigit_digitsOfNat, fun c => Text.isDigit_zeros⟩
  have hhead : (s ++ List.replicate k '0').head? ≠ some '0' := by
    rw [List.head?_append_of_ne_nil _ (Text.digitsOfNat_ne_nil _)]
    exact Text.head?_digitsOfNat hd
  refine ⟨⟨s ++ List.replicate k '0', ['0'], none, by simp [s, Text.digitsOfNat_ne_nil], hdigits, by simp,
    .inr hhead, by simp⟩, ?_, ?_⟩
  · simp [Figures.text, Figures.fractionText, Figures.exponentText, s]
  · have hzeros : s ++ List.replicate k '0' ++ ['0'] = s ++ List.replicate (k + 1) '0' := by
      rw [List.replicate_succ', List.append_assoc]
    simp only [Figures.value, Figures.power, Option.getD_none, hzeros, natOfDigits_append,
      Text.natOfDigits_digitsOfNat, Text.natOfDigits_zeros, List.length_replicate, toRat, he, s, add_zero]
    push_cast
    rw [mul_assoc, ← zpow_natCast, ← zpow_add₀ (by norm_num)]
    congr 2
    simp

/-- A decimal in scientific form: its first digit is before the point. -/
lemma exists_figures_scientific (hd : 0 < d.digits) :
    ∃ f : Figures, f.exponent = some (((digitsOfNat d.digits).length : ℤ) + d.exponent - 1) ∧
      f.whole = (digitsOfNat d.digits).take 1 ∧ f.fraction = (digitsOfNat d.digits).drop 1 ∧
      f.value = d.toRat ∧ f.power = d.exponent := by
  have hvalue := Text.natOfDigits_digitsOfNat d.digits
  generalize hs : digitsOfNat d.digits = s at hvalue
  have hne : s ≠ [] := hs ▸ Text.digitsOfNat_ne_nil _
  have hdigits : ∀ c ∈ s, c.isDigit = true := fun c hc => Text.isDigit_digitsOfNat (hs ▸ hc)
  have hhead : s.head? ≠ some '0' := hs ▸ Text.head?_digitsOfNat hd
  have hpower : (s.length : ℤ) + d.exponent - 1 - (s.drop 1).length = d.exponent := by
    have := List.length_pos_iff.mpr hne
    rw [List.length_drop]
    omega
  refine ⟨⟨s.take 1, s.drop 1, some (s.length + d.exponent - 1), by simpa using hne,
    fun c hc => hdigits c (List.mem_of_mem_take hc), fun c hc => hdigits c (List.mem_of_mem_drop hc),
    .inr ?_, by simp⟩, rfl, rfl, rfl, ?_, hpower⟩
  · rwa [List.head?_take, if_neg (by omega)]
  · simp only [Figures.value, Figures.power, Option.getD_some, hpower, List.take_append_drop, hvalue, toRat]

/-- A decimal whose first digit is far from the point is written in scientific form. -/
lemma exists_figures_apart (hd : 0 < d.digits)
    (hfar : ¬(-4 < ((digitsOfNat d.digits).length : ℤ) + d.exponent ∧
      ((digitsOfNat d.digits).length : ℤ) + d.exponent ≤ 16)) :
    ∃ f : Figures, f.text = d.written ∧ f.exponent = some (((digitsOfNat d.digits).length : ℤ) + d.exponent - 1) ∧
      f.value = d.toRat ∧ f.power = d.exponent := by
  have hpos := List.length_pos_iff.mpr (Text.digitsOfNat_ne_nil d.digits)
  obtain ⟨f, he, hw, hf, hv, hpower⟩ := exists_figures_scientific hd
  refine ⟨f, ?_, he, hv, hpower⟩
  rw [written]
  simp only [if_neg hfar]
  rw [Figures.text, he, hw, hf, List.append_assoc]
  congr 2
  rw [Figures.fractionText]
  congr 1
  rw [List.drop_eq_nil_iff]
  exact propext ⟨fun h => by omega, fun h => by omega⟩

/-- A decimal is written in figures that denote it. Places after the point are all its own. -/
theorem exists_figures (hd : 0 < d.digits) :
    ∃ f : Figures, f.text = d.written ∧ f.value = d.toRat ∧ (d.exponent < 0 → f.power = d.exponent) := by
  by_cases hnear : -4 < ((digitsOfNat d.digits).length : ℤ) + d.exponent ∧
      ((digitsOfNat d.digits).length : ℤ) + d.exponent ≤ 16
  · rw [written]
    simp only [if_pos hnear]
    generalize hp : ((digitsOfNat d.digits).length : ℤ) + d.exponent = point
    split
    · next hle =>
      have hk : point = -(-point).toNat := by omega
      obtain ⟨f, ht, hv, he⟩ := exists_figures_small (hp.trans hk)
      exact ⟨f, ht, hv, fun _ => he⟩
    · split
      · next hgt hlt =>
        have hk : point = point.toNat := by omega
        obtain ⟨f, ht, hv, he⟩ := exists_figures_between hd (by omega) (by omega) (hp.trans hk)
        exact ⟨f, ht, hv, fun _ => he⟩
      · next hge =>
        have hk : d.exponent = (point - (digitsOfNat d.digits).length).toNat := by omega
        obtain ⟨f, ht, hv⟩ := exists_figures_whole hd hk
        exact ⟨f, ht, hv, fun hneg => by omega⟩
  · obtain ⟨f, ht, -, hv, hpower⟩ := exists_figures_apart hd hnear
    exact ⟨f, ht, hv, fun _ => hpower⟩

end Decimal

namespace Number

variable {x : Float} {a : ℚ}

/-- A finite double other than zero is written in the figures of its size, behind a minus sign if it carries one. -/
lemma exists_figures_size (ha : toRat? x = some a) (hne : a ≠ 0) :
    ∃ f : Figures, (text x).toList = (if isNegative x then ['-'] else []) ++ f.text ∧
      toRat? f.size = toRat? x.abs := by
  obtain ⟨hnan, hinf⟩ := not_isNaN_of_toRat? ha
  obtain ⟨s, r, hr, -, habs, -⟩ := exists_signed ha hne
  obtain ⟨f, htext, hvalue, -⟩ := Decimal.exists_figures (Decimal.digits_shortest_pos habs hr)
  rw [text, hnan, hinf, beq_eq ha toRat?_zero]
  refine ⟨f, by simp [hne, htext], ?_⟩
  rw [f.toRat?_size, hvalue, Decimal.toRat?_shortest habs hr, habs]

/-- A finite double is written in figures, behind a minus sign if it carries one, and they are read as the same
double. -/
theorem exists_figures_text (ha : toRat? x = some a) :
    ∃ f : Figures, (text x).toList = (if isNegative x then ['-'] else []) ++ f.text ∧
      (if isNegative x then -f.size else f.size) = x := by
  by_cases hz : a = 0
  · subst hz
    obtain ⟨hnan, hinf⟩ := not_isNaN_of_toRat? ha
    rw [text, hnan, hinf, beq_eq ha toRat?_zero]
    refine ⟨.zero, by simp; rfl, ?_⟩
    rw [Figures.size_zero]
    exact eq_of_zero ha
  · obtain ⟨f, htext, hsize⟩ := exists_figures_size ha hz
    exact ⟨f, htext, eq_of_abs ha hz hsize⟩

end Number

end Reckoner
