import Mathlib
import Reckoner.Display
import Reckoner.Proofs.Number.Numeral
import Reckoner.Proofs.Number.Places
import Reckoner.Proofs.Number.Shortest

/-!
# What displayed texts denote

`Denotes` tells without any cutting which number a displayed text stands for: a decimal with an optional exponent, a
quotient, or a whole number with a quotient behind it, and a minus sign counts for the whole of it. No text stands for
two numbers (`Denotes.unique`). The display of a finite double is a decimal that is rounded to the double, and no
decimal with fewer places is (`exists_decimals_display`). Every finite double is shown as soon as the settings can be
used (`render_eq`).
-/

namespace Reckoner

namespace Display

open Number (toRat? round? display)
open Text (natOfDigits digitsOfNat)

/-- A natural number in digits. -/
inductive Digits : List Char → ℕ → Prop
  | mk {s} :
    s ≠ [] → (∀ c ∈ s, c.isDigit = true) →
    Digits s (natOfDigits s)

/-- An exponent with its sign behind the letter for it, or none. -/
inductive Exponent : List Char → ℤ → Prop
  | none :
    Exponent [] 0
  | plus {s n} :
    Digits s n →
    Exponent ('e' :: '+' :: s) n
  | minus {s n} :
    Digits s n →
    Exponent ('e' :: '-' :: s) (-n)

/-- A decimal, the number it denotes, and how many places it has after the point once the exponent is expanded. -/
inductive Decimals : List Char → ℚ → ℕ → Prop
  | mk {s t m e} :
    Numeral.Spells s m → Exponent t e →
    Decimals (s ++ t) (m.exact * 10 ^ e) (m.fraction.length - e).toNat

/-- A quotient of whole numbers. -/
inductive Ratio : List Char → ℚ → Prop
  | mk {s t p q} :
    Digits s p → Digits t q → 0 < q →
    Ratio (s ++ '/' :: t) (p / q)

/-- A number without a sign. -/
inductive Size : List Char → ℚ → Prop
  | decimal {s r k} :
    Decimals s r k →
    Size s r
  | ratio {s r} :
    Ratio s r →
    Size s r
  | mixed {s t n r} :
    Digits s n → Ratio t r →
    Size (s ++ ' ' :: t) (n + r)

/-- A text stands for a number; its sign is that of the whole number. -/
inductive Denotes : List Char → ℚ → Prop
  | plus {s r} :
    Size s r →
    Denotes s r
  | minus {s r} :
    Size s r →
    Denotes ('-' :: s) (-r)

section Unique

variable {s t : List Char} {m n k k' : ℕ} {e e' : ℤ} {r r' : ℚ} {c : Char}

lemma Digits.isDigit (h : Digits s n) : ∀ c ∈ s, c.isDigit = true := by
  cases h with
  | mk _ hd => exact hd

lemma Digits.ne_nil (h : Digits s n) : s ≠ [] := by
  cases h with
  | mk hne _ => exact hne

lemma Digits.notMem (h : Digits s n) (hc : c.isDigit = false) : c ∉ s :=
  fun hmem => Bool.false_ne_true (hc.symm.trans (h.isDigit c hmem))

lemma Digits.unique (h : Digits s m) (h' : Digits s n) : m = n := by
  cases h with
  | mk _ _ =>
    cases h' with
    | mk _ _ => rfl

lemma Exponent.unique (h : Exponent t e) (h' : Exponent t e') : e = e' := by
  cases h with
  | none => cases h' with
    | none => rfl
  | plus h => cases h' with
    | plus h' => rw [h.unique h']
  | minus h => cases h' with
    | minus h' => rw [h.unique h']

lemma Exponent.mem (h : Exponent t e) (hc : c ∈ t) : c ∈ ['e', '+', '-'] ∨ c.isDigit = true := by
  cases h with
  | none => cases hc
  | plus h =>
    simp only [List.mem_cons] at hc ⊢
    obtain rfl | rfl | hc := hc
    · exact .inl (.inl rfl)
    · exact .inl (.inr (.inl rfl))
    · exact .inr (h.isDigit c hc)
  | minus h =>
    simp only [List.mem_cons] at hc ⊢
    obtain rfl | rfl | hc := hc
    · exact .inl (.inl rfl)
    · exact .inl (.inr (.inr (.inl rfl)))
    · exact .inr (h.isDigit c hc)

lemma Exponent.head (h : Exponent t e) : ∀ c ∈ t.head?, Numeral.isPart c = false := by
  cases h with
  | none => simp
  | plus h => simp [Numeral.isPart]
  | minus h => simp [Numeral.isPart]

/-- The digits and the point end where the exponent begins. -/
lemma Decimals.unique (h : Decimals s r k) (h' : Decimals s r' k') : r = r' ∧ k = k' := by
  obtain @⟨a, t, m, e, hm, he⟩ := h
  generalize hs : a ++ t = s at h'
  obtain @⟨a', t', m', e', hm', he'⟩ := h'
  have hcut : a = a' := by
    rw [← Text.takeWhile_append_eq hm.parts he.head, hs, Text.takeWhile_append_eq hm'.parts he'.head]
  subst hcut
  obtain rfl : t = t' := List.append_cancel_left hs
  have hread := Numeral.ofChars?_eq_some_iff.mpr hm
  rw [Numeral.ofChars?_eq_some_iff.mpr hm', Option.some_inj] at hread
  rw [hread, he.unique he']
  exact ⟨rfl, rfl⟩

lemma Decimals.notMem (h : Decimals s r k) (hc : c = '/' ∨ c = ' ') : c ∉ s := by
  obtain ⟨hm, he⟩ := h
  rw [List.mem_append]
  rintro (hmem | hmem)
  · have := hm.parts c hmem
    obtain rfl | rfl := hc <;> simp [Numeral.isPart] at this
  · obtain hmem | hmem := he.mem hmem
    · obtain rfl | rfl := hc <;> simp at hmem
    · obtain rfl | rfl := hc <;> simp at hmem

lemma Ratio.mem (h : Ratio s r) : '/' ∈ s := by
  obtain ⟨-, -, -⟩ := h
  exact List.mem_append_right _ List.mem_cons_self

lemma Ratio.notMem (h : Ratio s r) : ' ' ∉ s := by
  obtain ⟨hp, hq, -⟩ := h
  simp [hp.notMem, hq.notMem]

lemma Ratio.unique (h : Ratio s r) (h' : Ratio s r') : r = r' := by
  obtain @⟨a, b, p, q, hp, hq, -⟩ := h
  generalize hs : a ++ '/' :: b = s at h'
  obtain ⟨hp', hq', -⟩ := h'
  have hslash : Char.isDigit '/' = false := rfl
  obtain ⟨rfl, -, rfl⟩ := (List.append_cons_inj_of_notMem (hp.notMem hslash) (hq.notMem hslash)).mp hs
  rw [hp.unique hp', hq.unique hq']

/-- The three kinds of sizes are told apart by their slashes and blanks. -/
lemma Size.unique (h : Size s r) (h' : Size s r') : r = r' := by
  cases h with
  | decimal h =>
    cases h' with
    | decimal h' => exact (h.unique h').1
    | ratio h' => exact absurd h'.mem (h.notMem (.inl rfl))
    | mixed _ _ => exact absurd (List.mem_append_right _ List.mem_cons_self) (h.notMem (.inr rfl))
  | ratio h =>
    cases h' with
    | decimal h' => exact absurd h.mem (h'.notMem (.inl rfl))
    | ratio h' => exact h.unique h'
    | mixed _ _ => exact absurd (List.mem_append_right _ List.mem_cons_self) h.notMem
  | @mixed a b n v hn hv =>
    generalize hs : a ++ ' ' :: b = s at h'
    cases h' with
    | decimal h' =>
      subst hs
      exact absurd (List.mem_append_right _ List.mem_cons_self) (h'.notMem (.inr rfl))
    | ratio h' =>
      subst hs
      exact absurd (List.mem_append_right _ List.mem_cons_self) h'.notMem
    | mixed hn' hv' =>
      obtain ⟨rfl, -, rfl⟩ := (List.append_cons_inj_of_notMem (hn.notMem rfl) hv.notMem).mp hs
      rw [hn.unique hn', hv.unique hv']

lemma Digits.head (h : Digits s n) (u : List Char) : ∃ c v, s ++ u = c :: v ∧ c ≠ '-' := by
  obtain ⟨c, v, rfl⟩ := List.exists_cons_of_ne_nil h.ne_nil
  refine ⟨c, v ++ u, rfl, ?_⟩
  rintro rfl
  exact absurd (h.isDigit '-' List.mem_cons_self) (by decide)

/-- A size does not begin with a sign. -/
lemma Size.head (h : Size s r) : ∃ c v, s = c :: v ∧ c ≠ '-' := by
  cases h with
  | decimal h =>
    obtain @⟨a, t, m, e, hm, -⟩ := h
    obtain ⟨c, v, rfl⟩ := List.exists_cons_of_ne_nil hm.ne_nil
    refine ⟨c, v ++ t, rfl, ?_⟩
    rintro rfl
    exact absurd (hm.parts '-' List.mem_cons_self) (by decide)
  | ratio h =>
    obtain ⟨hp, -, -⟩ := h
    exact hp.head _
  | mixed hn _ => exact hn.head _

/-- No text stands for two numbers. -/
theorem Denotes.unique (h : Denotes s r) (h' : Denotes s r') : r = r' := by
  cases h with
  | plus h =>
    cases h' with
    | plus h' => exact h.unique h'
    | minus _ =>
      obtain ⟨c, v, hs, hc⟩ := h.head
      exact absurd (List.cons.inj hs).1.symm hc
  | minus h =>
    cases h' with
    | plus h' =>
      obtain ⟨c, v, hs, hc⟩ := h'.head
      exact absurd (List.cons.inj hs).1.symm hc
    | minus h' => rw [h.unique h']

lemma Denotes.iff (h : Denotes s r) : Denotes s r' ↔ r' = r :=
  ⟨fun h' => h'.unique h, fun heq => heq ▸ h⟩

end Unique

section Existence

variable {n : ℕ} {r a : ℚ} {s : List Char} {x : Float}

lemma digits_digitsOfNat (n : ℕ) : Digits (digitsOfNat n) n := by
  have h := Digits.mk (Text.digitsOfNat_ne_nil n) fun c => Text.isDigit_digitsOfNat
  rwa [Text.natOfDigits_digitsOfNat] at h

lemma exponent_exponentText (e : Option ℤ) : Exponent (Figures.exponentText e) (e.getD 0) := by
  cases e with
  | none => exact .none
  | some n =>
    have h := Digits.mk (Figures.exponentDigits_ne_nil n) (Figures.isDigit_exponentDigits n)
    rw [Figures.natOfDigits_exponentDigits] at h
    rw [Figures.exponentText, Option.getD_some]
    split
    · next hneg =>
      have := Exponent.minus h
      rwa [Int.natCast_natAbs, abs_of_neg hneg, neg_neg] at this
    · next hpos =>
      have := Exponent.plus h
      rwa [Int.natCast_natAbs, abs_of_nonneg (not_lt.mp hpos)] at this

lemma decimals_digitsOfNat (n : ℕ) : Decimals (digitsOfNat n) n 0 := by
  have h := Decimals.mk (Numeral.spells_digitsOfNat n) .none
  simpa [Numeral.exact_digitsOfNat] using h

/-- Written figures are a decimal. -/
lemma decimals_figures (f : Figures) : Decimals f.text f.value (-f.power).toNat := by
  have h := Decimals.mk f.spells (exponent_exponentText f.exponent)
  rw [f.exact_mul_exponent, List.append_assoc] at h
  rwa [Figures.text, Figures.power, neg_sub]

/-- A minus sign before the text counts for the number. -/
lemma Size.denotes (h : Size s r) (p : Prop) [Decidable p] :
    Denotes ((if p then ['-'] else []) ++ s) (if p then -r else r) := by
  split
  · exact .minus h
  · exact .plus h

/-- The decimal of a number that is not whole has places after the point. -/
lemma exponent_shortest_neg (ha : toRat? x = some a) (hr : 0 < a) (hw : a.den ≠ 1) :
    (Decimal.shortest x).exponent < 0 := by
  by_contra hnonneg
  obtain ⟨e, he⟩ := Int.eq_ofNat_of_zero_le (not_lt.mp hnonneg)
  have hwhole : (Decimal.shortest x).toRat.den = 1 := by
    rw [Decimal.toRat, he]
    exact_mod_cast Rat.den_natCast ((Decimal.shortest x).digits * 10 ^ e)
  have hround := Decimal.toRat?_shortest ha hr
  rw [(Number.round?_eq_some hround).1] at hw
  exact hw (Number.den_rounded_of_whole hwhole)

/-- The display of a finite double is a decimal that is rounded to its size. Unless it is too long for that, no decimal
with fewer places is. -/
theorem exists_decimals_display (ha : toRat? x = some a) :
    ∃ s r k, (display x).toList = (if a < 0 then ['-'] else []) ++ s ∧ Decimals s r k ∧ round? r = some |a| ∧
      (|a| < 10 ^ 21 → ∀ (j : ℤ) (n : ℕ), round? (j / 10 ^ n) = some |a| → k ≤ n) := by
  have habs := Number.toRat?_abs ha
  obtain ⟨hw, -, htext⟩ | ⟨hne, hlong, htext⟩ := Number.toList_display ha
  · refine ⟨_, _, _, htext, decimals_digitsOfNat a.num.natAbs, ?_, fun _ _ n _ => n.zero_le⟩
    rw [Number.natAbs_num_of_whole hw]
    exact Number.round?_of_isDouble (Number.isDouble_of_toRat? habs)
  · have hpos := abs_pos.mpr hne
    obtain ⟨f, hf, hvalue, hpower⟩ := Decimal.exists_figures (Decimal.digits_shortest_pos habs hpos)
    refine ⟨f.text, f.value, _, by rw [htext, hf], decimals_figures f, ?_, fun hlt j n hj => ?_⟩
    · rw [hvalue]
      exact Decimal.toRat?_shortest habs hpos
    · have hfrac : |a|.den ≠ 1 := by
        rw [Rat.den_abs_eq_den]
        exact fun hden => hlt.not_ge (hlong hden)
      have hle := Decimal.le_exponent_shortest habs hpos (j := j) (k := -n)
        (by rwa [zpow_neg, zpow_natCast, ← div_eq_mul_inv])
      rw [hpower (exponent_shortest_neg habs hpos hfrac)]
      omega

/-- The display of a finite double stands for a number that is rounded to the double. -/
theorem exists_denotes_display (ha : toRat? x = some a) :
    ∃ r, Denotes (display x).toList r ∧ round? r = some a := by
  obtain ⟨s, r, k, htext, hs, hr, -⟩ := exists_decimals_display ha
  refine ⟨_, htext ▸ (Size.decimal hs).denotes (a < 0), ?_⟩
  split
  · next hneg => rw [Number.round?_neg, hr, Option.map_some, abs_of_neg hneg, neg_neg]
  · next hpos => rw [hr, abs_of_nonneg (not_lt.mp hpos)]

end Existence

/-- Usable settings show every finite double: a whole one as it is, any other in the way they ask for. -/
lemma render_eq {settings : Settings} {x : Float} {n : ℕ} {a : ℚ} (hplaces : settings.decimalPlaces = .ok n)
    (ha : toRat? x = some a) :
    render settings x = .ok (if a.den = 1 then ⟨display x, false⟩
      else if settings.showsFractions then asFraction x else asDecimal n x) := by
  have hfinite : x.isFinite = true := (Number.isFinite_iff x).mpr ⟨a, ha⟩
  have hwhole : Number.isWhole x = decide (a.den = 1) := by rw [Number.isWhole, ha]
  rw [render, hplaces, hfinite, hwhole]
  simp only [not_true_eq_false, false_or, decide_eq_true_eq]
  rfl

end Display

end Reckoner
