import Mathlib
import Reckoner.Proofs.Number.Numeral
import Reckoner.Proofs.Number.Written

/-!
# Displayed numbers

How a finite double is displayed depends on the number alone and not on the sign of a zero (`display_congr`): it is in
plain digits or in the shortest ones (`toList_display`). A display without an exponent can be read again: behind a minus
sign if the number is negative it is a numeral, and the value of this numeral is the size of the number
(`exists_spells_display`).
-/

namespace Reckoner

namespace Numeral

lemma spells_digitsOfNat (n : ℕ) : Spells (Text.digitsOfNat n) ⟨Text.digitsOfNat n, []⟩ :=
  .whole (Text.digitsOfNat_ne_nil n) fun _ => Text.isDigit_digitsOfNat

lemma exact_digitsOfNat (n : ℕ) : exact ⟨Text.digitsOfNat n, []⟩ = n := by
  rw [exact_whole, Text.natOfDigits_digitsOfNat]

end Numeral

namespace Figures

/-- The digits before and after the point are a numeral. -/
lemma spells (f : Figures) : Numeral.Spells (f.whole ++ fractionText f.fraction) ⟨f.whole, f.fraction⟩ := by
  rw [fractionText]
  split
  · next hnil =>
    rw [List.append_nil, hnil]
    exact .whole f.whole_ne_nil f.isDigit_whole
  · exact .pointed f.whole_ne_nil f.isDigit_whole f.isDigit_fraction

/-- The number of figures is that of their numeral, moved by the exponent. -/
lemma exact_mul_exponent (f : Figures) :
    Numeral.exact ⟨f.whole, f.fraction⟩ * 10 ^ f.exponent.getD 0 = f.value := by
  rw [Numeral.exact, value, power, zpow_sub₀ (by norm_num), zpow_natCast, div_mul_eq_mul_div, mul_div_assoc]

end Figures

namespace Number

variable {x y : Float} {a : ℚ}

/-- The size of a finite double. -/
lemma toRat?_abs (ha : toRat? x = some a) : toRat? x.abs = some |a| := by
  by_cases hz : a = 0
  · subst hz
    obtain ⟨s, hs⟩ := unpack_of_zero ha
    rw [toRat?_eq, unpack_abs, hs, abs_zero]
    rfl
  · obtain ⟨s, r, hr, rfl, habs, -⟩ := exists_signed ha hz
    rw [habs]
    cases s with
    | negative => rw [signed, abs_neg, abs_of_pos hr]
    | positive => rw [signed, abs_of_pos hr]

/-- The sign of a double other than zero is that of its number. -/
lemma isNegative_iff (ha : toRat? x = some a) (hne : a ≠ 0) : isNegative x = true ↔ a < 0 := by
  obtain ⟨s, r, hr, rfl, -, hs⟩ := exists_signed ha hne
  rw [hs]
  cases s with
  | negative => exact iff_of_true rfl (neg_lt_zero.mpr hr)
  | positive => exact iff_of_false nofun (not_lt.mpr hr.le)

/-- A size with its sign is the number. -/
lemma toRat?_restore (hx : toRat? x = some |a|) : toRat? (if a < 0 then -x else x) = some a := by
  split
  · next h => rw [toRat?_neg hx, abs_of_neg h, neg_neg]
  · next h => rw [hx, abs_of_nonneg (not_lt.mp h)]

/-- The display of a whole number that is not too long has neither a point nor an exponent. -/
lemma display_of_whole (ha : toRat? x = some a) (hw : a.den = 1 ∧ a.num.natAbs < 1000000000000000000000) :
    display x = ofInt a.num := by
  rw [display, ha]
  exact if_pos hw

lemma display_of_not_whole (ha : toRat? x = some a)
    (hw : ¬(a.den = 1 ∧ a.num.natAbs < 1000000000000000000000)) : display x = text x := by
  rw [display, ha]
  exact if_neg hw

lemma natAbs_num_of_whole (hw : a.den = 1) : (a.num.natAbs : ℚ) = |a| := by
  rw [Nat.cast_natAbs, Int.cast_abs, (Rat.den_eq_one_iff a).mp hw]

/-- Behind its sign a display has the digits of the number, if it is whole and not too long, or the shortest digits that
are read as the number. -/
lemma toList_display (ha : toRat? x = some a) :
    (a.den = 1 ∧ |a| < 10 ^ 21 ∧
        (display x).toList = (if a < 0 then ['-'] else []) ++ Text.digitsOfNat a.num.natAbs) ∨
      (a ≠ 0 ∧ (a.den = 1 → 10 ^ 21 ≤ |a|) ∧
        (display x).toList = (if a < 0 then ['-'] else []) ++ (Decimal.shortest x.abs).written) := by
  by_cases hw : a.den = 1 ∧ a.num.natAbs < 1000000000000000000000
  · refine .inl ⟨hw.1, ?_, ?_⟩
    · rw [← natAbs_num_of_whole hw.1]
      exact_mod_cast hw.2
    · rw [display_of_whole ha hw, ofInt, String.toList_ofList]
      simp only [Rat.num_neg]
  · have hne : a ≠ 0 := by
      rintro rfl
      exact hw (by decide)
    refine .inr ⟨hne, fun hden => ?_, ?_⟩
    · rw [← natAbs_num_of_whole hden]
      exact_mod_cast not_lt.mp fun hlt => hw ⟨hden, hlt⟩
    · obtain ⟨hnan, hinf⟩ := not_isNaN_of_toRat? ha
      rw [display_of_not_whole ha hw, text, hnan, hinf, beq_eq ha toRat?_zero, decide_eq_false hne]
      simp only [Bool.false_eq_true, if_false, String.toList_ofList, isNegative_iff ha hne]

/-- A sign before a text adds no other character. -/
lemma mem_signed {s : List Char} {c : Char} {p : Prop} [Decidable p] (hc : c ≠ '-') :
    c ∈ (if p then ['-'] else []) ++ s ↔ c ∈ s := by
  split <;> simp [hc]

/-- Equal numbers have one display. -/
theorem display_congr (hx : toRat? x = some a) (hy : toRat? y = some a) : display x = display y := by
  by_cases hz : a = 0
  · subst hz
    have hw : (0 : ℚ).den = 1 ∧ (0 : ℚ).num.natAbs < 1000000000000000000000 := by decide
    rw [display_of_whole hx hw, display_of_whole hy hw]
  · rw [eq_of_toRat? hx hy hz]

/-- A numeral whose exact value is a double has this value. -/
lemma toRat?_value_of_exact {n : Numeral} (hd : IsDouble a) (hn : n.exact = a) : toRat? n.value = some a := by
  rw [n.toRat?_value, hn, round?_of_isDouble hd]

/-- A display without an exponent is a numeral for the size of the number, behind a minus sign if it is
negative. -/
theorem exists_spells_display (ha : toRat? x = some a) (he : 'e' ∉ (display x).toList) :
    ∃ s n, (display x).toList = (if a < 0 then ['-'] else []) ++ s ∧ Numeral.Spells s n ∧
      toRat? n.value = some |a| := by
  obtain ⟨hw, -, htext⟩ | ⟨hne, -, htext⟩ := toList_display ha
  · refine ⟨_, _, htext, Numeral.spells_digitsOfNat _, ?_⟩
    refine toRat?_value_of_exact (isDouble_of_toRat? (toRat?_abs ha)) ?_
    rw [Numeral.exact_digitsOfNat, natAbs_num_of_whole hw]
  · have habs := toRat?_abs ha
    have hpos := abs_pos.mpr hne
    obtain ⟨f, hf, hvalue, -⟩ := Decimal.exists_figures (Decimal.digits_shortest_pos habs hpos)
    rw [htext, ← hf, mem_signed (by decide)] at he
    have hexponent : f.exponent = none := by
      cases h : f.exponent with
      | none => rfl
      | some n =>
        refine absurd ?_ he
        simp [Figures.text, Figures.exponentText, h]
    refine ⟨f.text, ⟨f.whole, f.fraction⟩, by rw [htext, hf], ?_, ?_⟩
    · rw [Figures.text, hexponent, Figures.exponentText, List.append_nil]
      exact f.spells
    · have hexact := f.exact_mul_exponent
      rw [hexponent, Option.getD_none, zpow_zero, mul_one, hvalue] at hexact
      rw [Numeral.toRat?_value, hexact]
      exact Decimal.toRat?_shortest habs hpos

end Number

end Reckoner
