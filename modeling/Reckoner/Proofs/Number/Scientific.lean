import Mathlib
import Reckoner.Proofs.Number.Shortest
import Reckoner.Proofs.Number.Displayed

/-!
# Displays with an exponent

A display has an exponent only if the number is far from one. Before the exponent stands a numeral with one digit before
its point, and the number is this numeral times a power of ten (`exists_scientific_display`). Exponents are bounded, and
so is the length of the text of a double (`length_text_le`).
-/

namespace Reckoner

namespace Decimal

open Text (digitsOfNat)

variable {d : Decimal}

/-- A decimal whose first digit is near the point is written without an exponent. -/
lemma notMem_written (hnear : -4 < (length d.digits : ℤ) + d.exponent ∧ (length d.digits : ℤ) + d.exponent ≤ 16) :
    'e' ∉ d.written := by
  have hs : ∀ c ∈ digitsOfNat d.digits, 'e' ≠ c := by
    rintro c hc rfl
    exact absurd (Text.isDigit_digitsOfNat hc) (by decide)
  have hmem : 'e' ∉ digitsOfNat d.digits := fun h => hs 'e' h rfl
  rw [length] at hnear
  rw [written]
  simp only [if_pos hnear]
  split
  · simp [hmem]
  · split
    · simp [mt List.mem_of_mem_take hmem, mt List.mem_of_mem_drop hmem]
    · simp [hmem]

/-- A decimal that is written with an exponent has one digit before its point and is far from one. -/
lemma exists_figures_of_mem (hd : 0 < d.digits) (he : 'e' ∈ d.written) :
    ∃ (f : Figures) (p : ℤ), f.text = d.written ∧ f.exponent = some p ∧
      1 ≤ Numeral.exact ⟨f.whole, f.fraction⟩ ∧ Numeral.exact ⟨f.whole, f.fraction⟩ < 10 ∧
      Numeral.exact ⟨f.whole, f.fraction⟩ * 10 ^ p = d.toRat ∧ (p ≤ -5 ∨ 16 ≤ p) := by
  have hfar := mt notMem_written (not_not.mpr he)
  obtain ⟨hlow, hhigh⟩ := bounds_toRat hd
  rw [length] at hfar hlow hhigh
  obtain ⟨f, hf, hexponent, hvalue, -⟩ := exists_figures_apart hd hfar
  have hmul := f.exact_mul_exponent
  generalize hp : ((digitsOfNat d.digits).length : ℤ) + d.exponent - 1 = p at hexponent hlow
  rw [hexponent, Option.getD_some, hvalue] at hmul
  have hten : (0 : ℚ) < 10 ^ p := by positivity
  refine ⟨f, p, hf, hexponent, ?_, ?_, hmul, by omega⟩
  · rw [← hmul] at hlow
    exact (le_mul_iff_one_le_left hten).mp hlow
  · rw [sub_eq_iff_eq_add.mp hp, ← hmul, zpow_add_one₀ (by norm_num), mul_comm (10 ^ p)] at hhigh
    exact lt_of_mul_lt_mul_right hhigh hten.le

/-- A decimal whose place is not far from the point is written with not many characters besides its digits. -/
lemma length_written_le (h : |(length d.digits : ℤ) + d.exponent - 1| ≤ 1100) :
    d.written.length ≤ length d.digits + 20 := by
  rw [length, abs_le] at h
  rw [length, written]
  simp only
  generalize digitsOfNat d.digits = s at h ⊢
  generalize (s.length : ℤ) + d.exponent = point at h ⊢
  split
  · split
    · simp only [List.length_cons, List.length_append, List.length_replicate]
      omega
    · split
      · rw [List.length_append, List.length_cons, List.length_take, List.length_drop]
        omega
      · simp only [List.length_cons, List.length_append, List.length_replicate, List.length_nil]
        omega
  · have hpower : (digitsOfNat (point - 1).natAbs).length ≤ 4 :=
      (Nat.length_toDigits_le_iff (by norm_num) (by norm_num)).mpr (by omega)
    have hfraction : (if s.length = 1 then [] else '.' :: s.drop 1).length ≤ s.length + 1 := by
      split
      · exact Nat.zero_le _
      · rw [List.length_cons, List.length_drop]
        omega
    rw [List.length_append, List.length_append, List.length_cons, List.length_cons, List.length_append,
      List.length_take, List.length_replicate]
    omega

end Decimal

namespace Number

variable {x : Float} {a r s : ℚ} {p : ℤ}

/-- The exponents of doubles are bounded. -/
lemma abs_exponent_le (hlow : 1 ≤ s) (hhigh : s < 10) (h : round? (s * 10 ^ p) = some r) (hr : r ≠ 0) : |p| ≤ 1100 := by
  have hten : (0 : ℚ) < 10 ^ p := by positivity
  have habs : |s * 10 ^ p| = s * 10 ^ p := abs_of_pos (by positivity)
  rw [abs_le]
  constructor
  · by_contra hp
    have hsmall : |s * 10 ^ p| < 2 ^ (-1076 : ℤ) := by
      rw [habs]
      calc s * 10 ^ p < 10 * 10 ^ p := mul_lt_mul_of_pos_right hhigh hten
        _ = 10 ^ (1 + p) := (zpow_one_add₀ (by norm_num) p).symm
        _ ≤ 10 ^ (-1076 : ℤ) := zpow_le_zpow_right₀ (by norm_num) (by omega)
        _ ≤ 2 ^ (-1076 : ℤ) := by
          rw [zpow_neg, zpow_neg, zpow_ofNat, zpow_ofNat]
          exact inv_anti₀ (by positivity) (pow_le_pow_left₀ (by norm_num) (by norm_num) _)
    rw [round?_eq_zero hsmall] at h
    exact hr (Option.some.inj h).symm
  · by_contra hp
    have hlarge : 2 ^ 1024 ≤ |s * 10 ^ p| := by
      rw [habs]
      calc (2 : ℚ) ^ 1024 ≤ 10 ^ 1024 := pow_le_pow_left₀ (by norm_num) (by norm_num) _
        _ = 10 ^ (1024 : ℤ) := (zpow_natCast 10 1024).symm
        _ ≤ 10 ^ p := zpow_le_zpow_right₀ (by norm_num) (by omega)
        _ ≤ s * 10 ^ p := le_mul_of_one_le_left hten.le hlow
    rw [round?_eq_none hlarge] at h
    cases h

/-- A display with an exponent is a numeral from one to ten times a power of ten, behind a minus sign if the number is
negative. -/
theorem exists_scientific_display (ha : toRat? x = some a) (he : 'e' ∈ (display x).toList) :
    ∃ (f : Figures) (p : ℤ), (display x).toList = (if a < 0 then ['-'] else []) ++ f.text ∧ f.exponent = some p ∧
      1 ≤ Numeral.exact ⟨f.whole, f.fraction⟩ ∧ Numeral.exact ⟨f.whole, f.fraction⟩ < 10 ∧
      round? (Numeral.exact ⟨f.whole, f.fraction⟩ * 10 ^ p) = some |a| ∧ (p ≤ -5 ∨ 16 ≤ p) := by
  obtain ⟨-, -, htext⟩ | ⟨hne, -, htext⟩ := toList_display ha
  · rw [htext, mem_signed (by decide)] at he
    exact absurd (Text.isDigit_digitsOfNat he) (by decide)
  · have hpos := abs_pos.mpr hne
    have habs := toRat?_abs ha
    rw [htext, mem_signed (by decide)] at he
    obtain ⟨f, p, hf, hexponent, hlow, hhigh, hmul, hp⟩ :=
      Decimal.exists_figures_of_mem (Decimal.digits_shortest_pos habs hpos) he
    refine ⟨f, p, by rw [htext, hf], hexponent, hlow, hhigh, ?_, hp⟩
    rw [hmul]
    exact Decimal.toRat?_shortest habs hpos

/-- A positive number between two powers of ten that reads back as a double is near one. -/
lemma abs_scale_le {y : ℚ} (hlow : 10 ^ p ≤ y) (hhigh : y < 10 ^ (p + 1)) (h : round? y = some r) (hr : r ≠ 0) :
    |p| ≤ 1100 := by
  have hten : (0 : ℚ) < 10 ^ p := by positivity
  rw [zpow_add_one₀ (by norm_num), mul_comm] at hhigh
  refine abs_exponent_le ((one_le_div hten).mpr hlow) ((div_lt_iff₀ hten).mpr hhigh) ?_ hr
  rwa [div_mul_cancel₀ y hten.ne']

/-- The shortest digits of a double are not many, and their place is not far from the point. -/
lemma bounds_shortest (hx : toRat? x = some r) (hr : 0 < r) :
    Decimal.length (Decimal.shortest x).digits ≤ 2300 ∧
      |(Decimal.length (Decimal.shortest x).digits : ℤ) + (Decimal.shortest x).exponent - 1| ≤ 1100 := by
  obtain ⟨d, hd⟩ := Decimal.exists_onGrid?_seventeen hx hr
  have hexponent := Decimal.le_exponent_shortest_of_grid hx hd le_rfl (by omega)
  have hround := round?_of_isDouble (isDouble_of_toRat? hx)
  obtain ⟨hlow, hhigh⟩ := Decimal.bounds_scale hr
  have hscale := abs_scale_le hlow (by rwa [sub_add_cancel]) hround hr.ne'
  obtain ⟨hlow, hhigh⟩ := Decimal.bounds_toRat (Decimal.digits_shortest_pos hx hr)
  have hplace := abs_scale_le hlow (by rwa [sub_add_cancel]) (Decimal.toRat?_shortest hx hr) hr.ne'
  refine ⟨?_, hplace⟩
  rw [abs_le] at hscale hplace
  omega

/-- The text of a finite double has a bounded length. -/
theorem length_text_le (ha : toRat? x = some a) : (text x).toList.length ≤ 2400 := by
  obtain ⟨hnan, hinf⟩ := not_isNaN_of_toRat? ha
  rw [text, hnan, hinf, beq_eq ha toRat?_zero]
  have hsign : (if isNegative x then ['-'] else []).length ≤ 1 := by
    split <;> simp
  by_cases hz : a = 0
  · simp [hz]
    omega
  · have hpos := abs_pos.mpr hz
    obtain ⟨hlength, hplace⟩ := bounds_shortest (toRat?_abs ha) hpos
    have hwritten := Decimal.length_written_le hplace
    simp [hz]
    omega

end Number

end Reckoner
