import Mathlib
import Reckoner.Equation.Quadratic
import Reckoner.Proofs.Display.Denoted
import Reckoner.Proofs.Number.Typed

/-!
# Displayed numbers as coefficients

A displayed number can be given as a coefficient and is read as the same number, so numbers that differ have displays
that differ (`readCoefficient_display`). A display never ends in a point and a zero: the shortest digits have no zero at
their end (`digits_shortest_mod`), a whole number that is not too long is in plain digits, and a longer one has an
exponent. Zero has no sign.
-/

namespace Reckoner

namespace Text

lemma natOfDigits_concat_zero (s : List Char) : natOfDigits (s ++ ['0']) % 10 = 0 := by
  have hzero : natOfDigits ['0'] = 0 := rfl
  rw [natOfDigits_append, hzero, List.length_singleton, pow_one, add_zero, Nat.mul_mod_left]

/-- The last digit of a number that is no multiple of ten. -/
lemma getLast?_digitsOfNat {n : ℕ} (h : n % 10 ≠ 0) : (digitsOfNat n).getLast? ≠ some '0' := by
  intro hlast
  obtain ⟨s, hs⟩ := List.getLast?_eq_some_iff.mp hlast
  rw [← natOfDigits_digitsOfNat n, hs] at h
  exact h (natOfDigits_concat_zero s)

/-- A text that does not end in a zero does not end in a point and a zero. -/
lemma not_pointZero_of_getLast? {s : List Char} (h : s.getLast? ≠ some '0') : ¬['.', '0'] <:+ s := by
  rintro ⟨r, rfl⟩
  rw [List.getLast?_append_of_ne_nil _ (by simp)] at h
  exact h rfl

/-- A text that ends in two digits does not end in a point and a zero. -/
lemma not_pointZero_of_digits {s t : List Char} (ht : ∀ c ∈ t, c.isDigit = true) (hlen : 2 ≤ t.length) :
    ¬['.', '0'] <:+ s ++ t := by
  intro h
  have hsuffix := List.suffix_of_suffix_length_le h (List.suffix_append s t) hlen
  exact absurd (ht '.' (hsuffix.subset List.mem_cons_self)) (by decide)

end Text

namespace Decimal

open Number (toRat? round?)
open Text (digitsOfNat)

variable {d : Decimal} {x : Float} {r : ℚ}

/-- A decimal in digits without a zero at their end is written with a point and a zero only if it is whole and not
long. -/
lemma not_pointZero_written (hd : d.digits % 10 ≠ 0) (hlong : 0 ≤ d.exponent → 16 < length d.digits + d.exponent) :
    ¬['.', '0'] <:+ d.written := by
  have hlast := Text.getLast?_digitsOfNat hd
  have hne := Text.digitsOfNat_ne_nil d.digits
  rw [length] at hlong
  rw [written]
  generalize digitsOfNat d.digits = s at hlast hne hlong
  generalize hp : (s.length : ℤ) + d.exponent = point at hlong
  simp only
  split
  · split
    · apply Text.not_pointZero_of_getLast?
      rwa [← List.cons_append, ← List.cons_append, List.getLast?_append_of_ne_nil _ hne]
    · split
      · next hgt hlt =>
        have hdrop : s.drop point.toNat ≠ [] := by simpa using by omega
        apply Text.not_pointZero_of_getLast?
        rwa [List.append_cons, List.getLast?_append_of_ne_nil _ hdrop,
          List.getLast?_drop, if_neg (by omega)]
      · omega
  · rw [List.append_cons, List.append_cons]
    exact Text.not_pointZero_of_digits (Figures.isDigit_exponentDigits (point - 1))
      (by rw [List.length_append, List.length_replicate]; omega)

end Decimal

namespace Number

variable {x z : Float} {a : ℚ}

/-- A size with its sign ends as the size does, since a minus sign is no point. -/
lemma not_pointZero_signed {s : List Char} {p : Prop} [Decidable p] (h : ¬['.', '0'] <:+ s) :
    ¬['.', '0'] <:+ (if p then ['-'] else []) ++ s := by
  split
  · rw [List.singleton_append, List.suffix_cons_iff]
    rintro (hall | hs)
    · exact absurd (List.cons.inj hall).1 (by decide)
    · exact h hs
  · exact h

/-- A double that is not shown in plain digits has places after the point, or is long. -/
lemma lt_length_shortest (ha : toRat? x = some a) (hpos : 0 < a) (hlong : a.den = 1 → 10 ^ 21 ≤ a)
    (hexp : 0 ≤ (Decimal.shortest x).exponent) :
    16 < Decimal.length (Decimal.shortest x).digits + (Decimal.shortest x).exponent := by
  have hden : a.den = 1 := by
    by_contra hden
    exact absurd (Display.exponent_shortest_neg ha hpos hden) (not_lt.mpr hexp)
  by_contra hshort
  have hlt := (Decimal.bounds_toRat (Decimal.digits_shortest_pos ha hpos)).2
  have hpower := zpow_le_zpow_right₀ (a := (10 : ℚ)) (by norm_num) (not_lt.mp hshort)
  have hle := rounded_le (isDouble_two_pow (n := 60) (by norm_num)) ((hlt.le.trans hpower).trans (by norm_num))
  rw [← (round?_eq_some (Decimal.toRat?_shortest ha hpos)).1] at hle
  linarith [hlong hden]

/-- No display ends in a point and a zero. -/
theorem not_pointZero_display (ha : toRat? x = some a) : ¬['.', '0'] <:+ (display x).toList := by
  obtain ⟨-, -, htext⟩ | ⟨hne, hlong, htext⟩ := toList_display ha
  · rw [htext]
    apply not_pointZero_signed
    intro h
    exact absurd (Text.isDigit_digitsOfNat (h.subset List.mem_cons_self)) (by decide)
  · have hpos := abs_pos.mpr hne
    have habs := toRat?_abs ha
    rw [← Rat.den_abs_eq_den] at hlong
    rw [htext]
    exact not_pointZero_signed
      (Decimal.not_pointZero_written (Decimal.digits_shortest_mod habs hpos) (lt_length_shortest habs hpos hlong))

/-- Zero has no sign. -/
lemma display_ne_minusZero (ha : toRat? x = some a) : display x ≠ "-0" := by
  intro h
  obtain ⟨r, hr, hround⟩ := Display.exists_denotes_display ha
  rw [h] at hr
  have hzero : Display.Denotes "-0".toList (-0) := .minus (.decimal (Display.decimals_digitsOfNat 0))
  rw [hr.unique hzero, neg_zero, round?_zero] at hround
  obtain rfl := Option.some.inj hround
  rw [display_of_whole ha (by decide)] at h
  exact absurd h (by decide)

/-- Numbers with one display are equal, because the display is read as each of them. -/
theorem display_inj (hx : x.isFinite = true) (hz : z.isFinite = true) : display z = display x ↔ (z == x) = true := by
  obtain ⟨a, ha⟩ := (isFinite_iff x).mp hx
  obtain ⟨c, hc⟩ := (isFinite_iff z).mp hz
  constructor
  · intro h
    obtain ⟨y, hy, hyx⟩ := exists_typed_display (not_isNaN_of_toRat? ha).1
    obtain ⟨y', hy', hyz⟩ := exists_typed_display (not_isNaN_of_toRat? hc).1
    rw [h, hy] at hy'
    obtain rfl := Option.some.inj hy'
    have hvalue := toRat?_of_beq hyz hc
    rw [toRat?_of_beq hyx ha] at hvalue
    obtain rfl := Option.some.inj hvalue
    exact beq_of_toRat? hc ha
  · exact fun h => display_congr (toRat?_of_beq h ha) ha

/-- A whole number in plain digits: no leading zero but a single one, and a minus sign before what is below zero. -/
inductive PlainWhole : List Char → ℤ → Prop
  | size {s n} :
    Display.Digits s n → (s = ['0'] ∨ s.head? ≠ some '0') →
    PlainWhole s n
  | minus {s n} :
    Display.Digits s n → s.head? ≠ some '0' →
    PlainWhole ('-' :: s) (-n)

lemma plainWhole_ofInt (n : ℤ) : PlainWhole (ofInt n).toList n := by
  have hdigits := Display.digits_digitsOfNat n.natAbs
  rw [ofInt, String.toList_ofList]
  split
  · next hneg =>
    have h := PlainWhole.minus hdigits (Text.head?_digitsOfNat (by omega))
    rwa [Int.natCast_natAbs, abs_of_neg hneg, neg_neg] at h
  · next hpos =>
    have hlead : Text.digitsOfNat n.natAbs = ['0'] ∨ (Text.digitsOfNat n.natAbs).head? ≠ some '0' := by
      rcases Nat.eq_zero_or_pos n.natAbs with hz | hn
      · exact .inl (by rw [hz]; rfl)
      · exact .inr (Text.head?_digitsOfNat hn)
    have h := PlainWhole.size hdigits hlead
    rwa [Int.natCast_natAbs, abs_of_nonneg (not_lt.mp hpos)] at h

end Number

namespace Quadratic

open Number (toRat? display PlainWhole)

variable {x : Float} {a : ℚ}

/-- The display of a finite double is read as a coefficient of this value, and no other number has it. It does not end
in a point and a zero, zero has no sign, and a whole number below 10^21 in size is in plain digits. -/
theorem readCoefficient_display (ha : toRat? x = some a) :
    (∃ y, readCoefficient (display x) = .ok y ∧ (y == x) = true) ∧
      (∀ z : Float, z.isFinite = true → (display z = display x ↔ (z == x) = true)) ∧
      ¬['.', '0'] <:+ (display x).toList ∧ display x ≠ "-0" ∧
      (a.den = 1 → |a| < 10 ^ 21 → PlainWhole (display x).toList a.num) := by
  have hfinite : x.isFinite = true := (Number.isFinite_iff x).mpr ⟨a, ha⟩
  refine ⟨?_, fun z hz => Number.display_inj hfinite hz, Number.not_pointZero_display ha,
    Number.display_ne_minusZero ha, fun hden hlt => ?_⟩
  · obtain ⟨y, hy, hyx⟩ := Number.exists_typed_display (Number.not_isNaN_of_toRat? ha).1
    have hyfinite : y.isFinite = true := (Number.isFinite_iff y).mpr ⟨a, Number.toRat?_of_beq hyx ha⟩
    exact ⟨y, by rw [readCoefficient, hy]; exact if_pos hyfinite, hyx⟩
  · have hnum : a.num.natAbs < 1000000000000000000000 := by
      rw [← Number.natAbs_num_of_whole hden] at hlt
      exact_mod_cast hlt
    rw [Number.display_of_whole ha ⟨hden, hnum⟩]
    exact Number.plainWhole_ofInt a.num

/-- A whole number that is too long for plain digits. -/
theorem readCoefficient_display_long :
    (∃ y, readCoefficient (display 1e21) = .ok y ∧ (y == 1e21) = true) ∧
      (∀ z : Float, z.isFinite = true → (display z = display 1e21 ↔ (z == 1e21) = true)) ∧
      ¬['.', '0'] <:+ (display 1e21).toList ∧ display 1e21 ≠ "-0" ∧
      ((10 ^ 21 : ℚ).den = 1 → |(10 ^ 21 : ℚ)| < 10 ^ 21 → PlainWhole (display 1e21).toList (10 ^ 21 : ℚ).num) :=
  readCoefficient_display (by decide +kernel)

end Quadratic

end Reckoner
