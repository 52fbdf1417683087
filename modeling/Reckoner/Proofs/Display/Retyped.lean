import Mathlib
import Reckoner.Proofs.Display.Flag
import Reckoner.Proofs.Display.Misreading
import Reckoner.Proofs.Display.Order
import Reckoner.Proofs.Expression.Plain
import Reckoner.Proofs.Number.Scientific
import Reckoner.Proofs.Number.Typed

/-!
# Displayed results typed in as expressions

A displayed result that stands for the number exactly can be typed in again, and has a value. The value is the number
again unless the text is `Misread`: it has an exponent, whose letter is the constant, or it is a mixed fraction, whose
blank is dropped (`evaluate_render`).
-/

namespace Reckoner

namespace Lexeme

variable {s t r : List Char} {l : List Lexeme} {m n : Numeral} {c : Char}

lemma Cuts.of_spells (h : Numeral.Spells s n) : Cuts s [.numeral s] := by
  have := @Cuts.numeral s [] [] h.ne_nil h.parts (by simp) .nil
  rwa [List.append_nil] at this

lemma Cuts.signed (h : Cuts s l) (p : Prop) [Decidable p] :
    Cuts ((if p then ['-'] else []) ++ s) ((if p then [.mark '-'] else []) ++ l) := by
  split
  · exact .mark (by decide) (by decide) h
  · exact h

lemma Cuts.quotient (hs : Numeral.Spells s m) (ht : Numeral.Spells t n) :
    Cuts (s ++ '/' :: t) [.numeral s, .mark '/', .numeral t] :=
  .numeral hs.ne_nil hs.parts (by simp; decide) (.mark (by decide) (by decide) (.of_spells ht))

lemma Cuts.scientific (hs : Numeral.Spells s m) (o : Operator) (ht : Numeral.Spells t n) :
    Cuts (s ++ 'e' :: o.symbol :: t) [.numeral s, .name ['e'], .mark o.symbol, .numeral t] := by
  have hmark : Cuts (o.symbol :: t) [.mark o.symbol, .numeral t] :=
    .mark (by cases o <;> decide) (by cases o <;> decide) (.of_spells ht)
  exact .numeral hs.ne_nil hs.parts (by simp; decide)
    (@Cuts.name 'e' [] _ _ (by decide) (by simp) (by cases o <;> simp [Operator.symbol]) hmark)

end Lexeme

namespace Expression

open Number (toRat? round? rounded euler toRat?_euler)

variable {text : String} {s t : List Char} {m n : Numeral} {f : Figures} {a b c : ℚ} {k : ℤ} {p : Prop} [Decidable p]

lemma derives_numeral (h : Numeral.Spells s n) : Derives .power [.numeral s] (.number n.value) :=
  .atom (.number (Numeral.ofChars?_eq_some_iff.mpr h))

/-- A numeral with a sign. -/
lemma exists_evaluate_numeral (htext : text.toList = (if p then ['-'] else []) ++ s) (hs : Numeral.Spells s n)
    (ha : round? n.exact = some a) : ∃ y, evaluate text = .ok y ∧ toRat? y = some (if p then -a else a) := by
  have hcuts := (Lexeme.Cuts.of_spells hs).signed p
  have hderives := Derives.signed (derives_numeral hs).product p
  refine exists_evaluate_of_cuts ?_ hcuts hderives ((Tree.Rounds.numeral ha).signed p)
  rw [htext, hcuts.dropBlanks hderives.isWord]

/-- A quotient of numerals with a sign. -/
lemma exists_evaluate_quotient (htext : Text.dropBlanks text.toList = (if p then ['-'] else []) ++ (s ++ '/' :: t))
    (hs : Numeral.Spells s m) (ht : Numeral.Spells t n) (ha : round? m.exact = some a) (hb : round? n.exact = some b)
    (hne : b ≠ 0) (hc : round? (a / b) = some c) :
    ∃ y, evaluate text = .ok y ∧ toRat? y = some (if p then -c else c) := by
  have hcuts := (Lexeme.Cuts.quotient hs ht).signed p
  have hderives (signed : Bool) : Derives (.product signed)
      ([.numeral s] ++ .mark Operator.divide.symbol :: [.numeral t])
      (.binary .divide (.number m.value) (.number n.value)) :=
    .times (.inr rfl) ((derives_numeral hs).product signed) (.factor (derives_numeral ht))
  have hquotient : Operator.divide.rational? a b = some (a / b) := if_neg hne
  exact exists_evaluate_of_cuts htext hcuts (Derives.signed hderives p)
    ((Tree.Rounds.binary (.numeral ha) (.numeral hb) hquotient hc).signed p)

/-- The sign of an exponent is the operator before its size. -/
lemma exists_operator (k : ℤ) : ∃ o : Operator, (o = .add ∨ o = .subtract) ∧
    (if k < 0 then '-' else '+') = o.symbol ∧ ∀ r : ℚ, o.rational? r k.natAbs = some (r + k) := by
  obtain hneg | hpos := lt_or_ge k 0
  · refine ⟨.subtract, .inr rfl, if_pos hneg, fun r => congrArg some ?_⟩
    rw [Nat.cast_natAbs, abs_of_neg hneg]
    push_cast
    ring
  · refine ⟨.add, .inl rfl, if_neg (not_lt.mpr hpos), fun r => congrArg some ?_⟩
    rw [Nat.cast_natAbs, abs_of_nonneg hpos]

/-- Figures with an exponent are read as a product with the constant, and the exponent is added to it. -/
lemma exists_evaluate_scientific (htext : text.toList = (if p then ['-'] else []) ++ f.text)
    (hexponent : f.exponent = some k) (hk : k.natAbs ≤ 2 ^ 53)
    (ha : round? (Numeral.exact ⟨f.whole, f.fraction⟩) = some a) (hb : round? (a * euler) = some b)
    (hc : round? ((if p then -b else b) + k) = some c) :
    ∃ y, evaluate text = .ok y ∧ toRat? y = some c := by
  obtain ⟨o, ho, hsymbol, hsum⟩ := exists_operator k
  have hdigits : Numeral.Spells (Figures.exponentDigits k) ⟨Figures.exponentDigits k, []⟩ :=
    .whole (Figures.exponentDigits_ne_nil k) (Figures.isDigit_exponentDigits k)
  have hsize : round? (Numeral.exact ⟨Figures.exponentDigits k, []⟩) = some (k.natAbs : ℚ) := by
    rw [Numeral.exact_whole, Figures.natOfDigits_exponentDigits]
    exact Number.round?_of_isDouble (Number.isDouble_natCast hk)
  have hcuts := (Lexeme.Cuts.scientific f.spells o hdigits).signed p
  have hproduct (signed : Bool) : Derives (.product signed)
      ([.numeral (f.whole ++ Figures.fractionText f.fraction)] ++ [.name Constant.e.name.toList])
      (.binary .multiply (.number (Numeral.value ⟨f.whole, f.fraction⟩)) (.number Constant.e.value)) :=
    .juxtaposed ((derives_numeral f.spells).product signed) (.atom .constant) rfl rfl
      (.inl ⟨.inl ⟨_, rfl⟩, .inr ⟨_, rfl⟩⟩)
  have hderives := Derives.plus ho (Derives.signed hproduct p) (.signedFirst (.factor (derives_numeral hdigits)))
  rw [List.append_assoc] at hderives
  have htimes : Operator.multiply.rational? a euler = some (a * euler) := rfl
  have hrounds := Tree.Rounds.binary ((Tree.Rounds.binary (.numeral ha) (.number toRat?_euler) htimes hb).signed p)
    (.numeral hsize) (hsum _) hc
  refine exists_evaluate_of_cuts ?_ hcuts hderives hrounds
  rw [htext, Figures.text, hexponent, Figures.exponentText, hsymbol, ← List.append_assoc f.whole]
  exact hcuts.dropBlanks hderives.isWord

end Expression

namespace Display

open Number (toRat? round? rounded display closestFraction IsDouble)
open Text (natOfDigits digitsOfNat)

/-- Texts of results that have another value than they show: those with an exponent, and those with a whole number
before a fraction, unless the denominator is the power of ten that moves it past the numerator. -/
inductive Misread : List Char → Prop
  | exponent {s} :
    'e' ∈ s →
    Misread s
  | mixed {w p q} :
    natOfDigits q ≠ 10 ^ p.length →
    Misread (w ++ ' ' :: (p ++ '/' :: q))

/-- A text with a value that is the shown number just when the text is not misread. -/
def Retypes (text : String) (a : ℚ) : Prop :=
  ∃ y b, Expression.evaluate text = .ok y ∧ toRat? y = some b ∧ (b = a ↔ ¬Misread text.toList)

variable {settings : Settings} {text : String} {x : Float} {a r z : ℚ} {n p q : ℕ} {s : List Char}

lemma not_misread (he : 'e' ∉ s) (hb : ' ' ∉ s) : ¬Misread s := by
  rintro (h | -)
  · exact he h
  · exact hb (by simp)

/-- A display with an exponent has a value, which is another number. -/
lemma retypes_scientific (ha : toRat? x = some a) (he : 'e' ∈ (display x).toList) : Retypes (display x) a := by
  obtain ⟨f, k, htext, hexponent, hlow, hhigh, hround, hfar⟩ := Number.exists_scientific_display ha he
  have hne : a ≠ 0 := by
    rintro rfl
    rw [Number.display_of_whole ha (by decide)] at he
    exact absurd he (by decide)
  have hk := Number.abs_exponent_le hlow hhigh hround (abs_pos.mpr hne).ne'
  have hsize : k.natAbs ≤ 2 ^ 53 := by
    rw [Int.abs_eq_natAbs] at hk
    omega
  have hnumeral : |Numeral.exact ⟨f.whole, f.fraction⟩| ≤ 2 ^ 100 := by
    rw [abs_of_nonneg (by linarith)]
    linarith
  have hsum := Number.abs_product_add_le (a := a) hlow hhigh hk
  obtain ⟨y, hy, hyb⟩ := Expression.exists_evaluate_scientific htext hexponent hsize
    (Number.round?_of_moderate hnumeral) (Number.product_moderate hlow hhigh).1
    (Number.round?_of_moderate (hsum.trans (by norm_num)))
  exact ⟨y, _, hy, hyb, iff_of_false (Number.rounded_euler_ne hlow hhigh hk hfar hround hne)
    (not_not.mpr (.exponent he))⟩

/-- A display without an exponent is read back. -/
lemma retypes_plain (ha : toRat? x = some a) (he : 'e' ∉ (display x).toList) : Retypes (display x) a := by
  obtain ⟨s, n, htext, hs, hn⟩ := Number.exists_spells_display ha he
  rw [n.toRat?_value] at hn
  obtain ⟨y, hy, hyb⟩ := Expression.exists_evaluate_numeral htext hs hn
  refine ⟨y, _, hy, hyb, iff_of_true (Number.signed_abs a) (not_misread he fun hb => ?_)⟩
  exact absurd (Number.mem_display hb) (by decide)

lemma retypes_display (ha : toRat? x = some a) : Retypes (display x) a := by
  by_cases he : 'e' ∈ (display x).toList
  · exact retypes_scientific ha he
  · exact retypes_plain ha he

section Fractions

lemma notMem_digitsOfNat {c : Char} (hc : c.isDigit = false) (n : ℕ) : c ∉ digitsOfNat n :=
  (digits_digitsOfNat n).notMem hc

lemma notMem_quotient {c : Char} (hc : c.isDigit = false) (hslash : c ≠ '/') :
    c ∉ digitsOfNat p ++ '/' :: digitsOfNat q := by
  simp [notMem_digitsOfNat hc, hslash]

lemma misread_mixed_iff {w : List Char} (he : 'e' ∉ w) (hb : ' ' ∉ w) :
    Misread (w ++ ' ' :: (digitsOfNat p ++ '/' :: digitsOfNat q)) ↔ q ≠ 10 ^ (digitsOfNat p).length := by
  constructor
  · generalize htext : w ++ ' ' :: (digitsOfNat p ++ '/' :: digitsOfNat q) = s
    rintro (h | hne)
    · subst htext
      rcases List.mem_append.mp h with h | h
      · exact absurd h he
      · exact absurd ((List.mem_cons.mp h).resolve_left (by decide)) (notMem_quotient (by decide) (by decide))
    · obtain ⟨-, -, htail⟩ :=
        (List.append_cons_inj_of_notMem hb (notMem_quotient (by decide) (by decide))).mp htext
      obtain ⟨rfl, -, rfl⟩ := (List.append_cons_inj_of_notMem (notMem_digitsOfNat (by decide) p)
        (notMem_digitsOfNat (by decide) q)).mp htail
      rwa [Text.natOfDigits_digitsOfNat] at hne
  · intro hne
    exact .mixed (by rwa [Text.natOfDigits_digitsOfNat])

lemma dropBlanks_digitsOfNat (n : ℕ) : Text.dropBlanks (digitsOfNat n) = digitsOfNat n :=
  List.filter_eq_self.mpr fun c hc => by
    rw [(Number.plain_of_shown (Number.mem_shownChars_of_isDigit (Text.isDigit_digitsOfNat hc))).1]
    rfl

lemma dropBlanks_quotient (p q : ℕ) :
    Text.dropBlanks (digitsOfNat p ++ '/' :: digitsOfNat q) = digitsOfNat p ++ '/' :: digitsOfNat q := by
  rw [Text.dropBlanks_append, Text.dropBlanks_cons (by decide), dropBlanks_digitsOfNat, dropBlanks_digitsOfNat]

lemma dropBlanks_signed (s : List Char) (p : Prop) [Decidable p] :
    Text.dropBlanks ((if p then ['-'] else []) ++ s) = (if p then ['-'] else []) ++ Text.dropBlanks s := by
  rw [Text.dropBlanks_append]
  split <;> rfl

lemma round?_digitsOfNat (hn : n ≤ 2 ^ 53) : round? (Numeral.exact ⟨digitsOfNat n, []⟩) = some (n : ℚ) := by
  rw [Numeral.exact_digitsOfNat]
  exact Number.round?_of_isDouble (Number.isDouble_natCast hn)

/-- The sign of a number is that of what it is rounded to. -/
lemma signed_eq_rounded_iff (r z : ℚ) : (if r < 0 then -z else z) = rounded r ↔ z = rounded |r| := by
  split
  · next h => rw [abs_of_neg h, Number.rounded_neg, neg_eq_iff_eq_neg]
  · next h => rw [abs_of_nonneg (not_lt.mp h)]

/-- A proper fraction is read as the quotient that it shows. -/
lemma retypes_proper (h : Reduced 100000 p q) (hr : |r| = p / q)
    (htext : text.toList = (if r < 0 then ['-'] else []) ++ (digitsOfNat p ++ '/' :: digitsOfNat q)) :
    Retypes text (rounded r) := by
  have hle := h.le
  have hlt := h.lt
  have hq : (0 : ℚ) < q := by exact_mod_cast h.pos.trans hlt
  have hdrop : Text.dropBlanks text.toList =
      (if r < 0 then ['-'] else []) ++ (digitsOfNat p ++ '/' :: digitsOfNat q) := by
    rw [htext, dropBlanks_signed, dropBlanks_quotient]
  have hquotient : |(p / q : ℚ)| ≤ 2 ^ 100 := by
    rw [abs_of_nonneg (by positivity), div_le_iff₀ hq]
    have : (p : ℚ) ≤ q := by exact_mod_cast hlt.le
    linarith
  obtain ⟨y, hy, hyb⟩ := Expression.exists_evaluate_quotient hdrop (Numeral.spells_digitsOfNat p)
    (Numeral.spells_digitsOfNat q) (round?_digitsOfNat (by omega)) (round?_digitsOfNat (by omega)) hq.ne'
    (Number.round?_of_moderate hquotient)
  refine ⟨y, _, hy, hyb, iff_of_true ((signed_eq_rounded_iff r _).mpr (by rw [hr])) (not_misread ?_ ?_)⟩
  · rw [htext, Number.mem_signed (by decide)]
    exact notMem_quotient (by decide) (by decide)
  · rw [htext, Number.mem_signed (by decide)]
    exact notMem_quotient (by decide) (by decide)

lemma den_of_mixed (h : Reduced 100000 p q) (hr : |r| = n + p / q) : r.den = q := by
  have hq : 0 < q := h.pos.trans h.lt
  have hq' : (q : ℚ) ≠ 0 := by exact_mod_cast hq.ne'
  have hcoprime : (n * q + p).Coprime q := (Nat.coprime_mul_right_add_left _ _ _).mpr h.coprime
  have hvalue : |r| = ((n * q + p : ℕ) : ℤ) / ((q : ℕ) : ℤ) := by
    rw [hr]
    push_cast
    field_simp
  have hden := Rat.den_div_eq_of_coprime (a := (n * q + p : ℕ)) (b := (q : ℕ)) (by exact_mod_cast hq)
    (by rwa [Int.natAbs_natCast, Int.natAbs_natCast])
  rw [← Rat.den_abs_eq_den, hvalue]
  exact_mod_cast hden

/-- The closest fraction to a double has a power of ten as denominator only if the double has more places, and then its
numerator is not long. -/
lemma numerator_le (h : Reduced 100000 p q) (hr : |r| = n + p / q) (ha : IsDouble a) (hround : rounded r = a)
    (hclosest : a.den ≤ 100000 → r = a) (hten : q = 10 ^ (digitsOfNat p).length) : n * q + p ≤ 2 ^ 53 := by
  have hlength : (digitsOfNat p).length ≠ 0 := mt List.length_eq_zero_iff.mp (Text.digitsOfNat_ne_nil p)
  have hlong : 100000 < a.den := by
    by_contra hshort
    rw [← hclosest (not_lt.mp hshort)] at ha
    exact Number.not_isDouble_of_den_eq hlength ((den_of_mixed h hr).trans hten) ha
  have hsmall : |r| ≤ 2 ^ 36 := by
    by_contra hlarge
    have hle := Number.le_rounded (Number.isDouble_two_pow (n := 36) (by norm_num)) (not_le.mp hlarge).le
    rw [← Number.abs_rounded, hround] at hle
    exact hle.not_gt (Number.abs_lt_of_den ha hlong)
  have hq : (0 : ℚ) < q := by exact_mod_cast h.pos.trans h.lt
  have hq' : (q : ℚ) ≤ 100000 := by exact_mod_cast h.le
  have hvalue : (n * q + p : ℚ) = |r| * q := by
    rw [hr]
    field_simp
  have hle : (n * q + p : ℚ) ≤ 2 ^ 53 := by
    rw [hvalue]
    nlinarith
  exact_mod_cast hle

/-- A numerator moves the whole number before it by a power of ten that is not above the bound either. -/
lemma ten_pow_length_le (hp : 0 < p) (hlt : p < 100000) : 10 ^ (digitsOfNat p).length ≤ 100000 := by
  have hlow : 10 ^ ((digitsOfNat p).length - 1) < 10 ^ 5 := (Decimal.ten_pow_le hp).trans_lt hlt
  have := (Nat.pow_lt_pow_iff_right (by norm_num)).mp hlow
  exact (Nat.pow_le_pow_right (by norm_num) (show (digitsOfNat p).length ≤ 5 by omega)).trans_eq (by norm_num)

/-- Digits side by side are a numeral. -/
lemma spells_digitsOfNat_append (n p : ℕ) :
    Numeral.Spells (digitsOfNat n ++ digitsOfNat p) ⟨digitsOfNat n ++ digitsOfNat p, []⟩ :=
  .whole (by simp [Text.digitsOfNat_ne_nil])
    (List.forall_mem_append.mpr ⟨fun _ => Text.isDigit_digitsOfNat, fun _ => Text.isDigit_digitsOfNat⟩)

lemma exact_digitsOfNat_append (n p : ℕ) : Numeral.exact ⟨digitsOfNat n ++ digitsOfNat p, []⟩ =
    ((n * 10 ^ (digitsOfNat p).length + p : ℕ) : ℚ) := by
  rw [Numeral.exact_whole, Text.natOfDigits_append, Text.natOfDigits_digitsOfNat, Text.natOfDigits_digitsOfNat]

/-- A mixed fraction is read with the digits of its whole number before those of its numerator. -/
lemma retypes_mixed (hn : 0 < n) (h : Reduced 100000 p q) (hr : |r| = n + p / q) (hlarge : n ≤ 2 ^ 53)
    (hfit : q = 10 ^ (digitsOfNat p).length → n * q + p ≤ 2 ^ 53)
    (htext : text.toList =
      (if r < 0 then ['-'] else []) ++ (digitsOfNat n ++ ' ' :: (digitsOfNat p ++ '/' :: digitsOfNat q))) :
    Retypes text (rounded r) := by
  have hle := h.le
  have hlt := h.lt
  have hpos : 0 < q := h.pos.trans hlt
  have hdrop : Text.dropBlanks text.toList =
      (if r < 0 then ['-'] else []) ++ ((digitsOfNat n ++ digitsOfNat p) ++ '/' :: digitsOfNat q) := by
    rw [htext, dropBlanks_signed, Text.dropBlanks_append, dropBlanks_digitsOfNat,
      Text.dropBlanks_cons_blank (by decide), dropBlanks_quotient, List.append_assoc]
  have hmisread : Misread text.toList ↔ q ≠ 10 ^ (digitsOfNat p).length := by
    rw [htext, ← List.append_assoc]
    apply misread_mixed_iff
    · exact (Number.mem_signed (by decide)).not.mpr (notMem_digitsOfNat (by decide) n)
    · exact (Number.mem_signed (by decide)).not.mpr (notMem_digitsOfNat (by decide) n)
  have hpt : p < 10 ^ (digitsOfNat p).length := Decimal.lt_ten_pow_length p
  have ht := ten_pow_length_le h.pos (hlt.trans_le hle)
  obtain ⟨hnumeral, hquotient⟩ := Number.mixed_moderate hlarge hpt ht hpos
  obtain ⟨y, hy, hyb⟩ := Expression.exists_evaluate_quotient hdrop (spells_digitsOfNat_append n p)
    (Numeral.spells_digitsOfNat q) (by rw [exact_digitsOfNat_append, hnumeral]) (round?_digitsOfNat (by omega))
    (by exact_mod_cast hpos.ne') hquotient
  refine ⟨y, _, hy, hyb, ?_⟩
  rw [signed_eq_rounded_iff, hr, hmisread, not_not]
  generalize 10 ^ (digitsOfNat p).length = t at *
  constructor
  · intro heq
    by_contra hne
    exact Number.rounded_mixed_ne hn hlt hle hpt ht hne heq
  · rintro rfl
    exact Number.rounded_mixed_eq hpos (hfit rfl)

/-- A fraction that is rounded to a double, and is the double itself if this has a short denominator. -/
lemma retypes_fraction (hr : r.den ≤ 100000) (ha : IsDouble a) (hround : round? r = some a) (hw : a.den ≠ 1)
    (hclosest : a.den ≤ 100000 → r = a) : Retypes (fractionText r) a := by
  have hrounded := (Number.round?_eq_some hround).1
  obtain ⟨s, htext, hs⟩ := exists_lowest hr
  generalize hsize : |r| = v at hs
  rw [hrounded]
  cases hs with
  | whole =>
    rw [hrounded] at hw
    refine absurd (Number.den_rounded_of_whole ?_) hw
    rw [← Rat.den_abs_eq_den, hsize, Rat.den_natCast]
  | proper h => exact retypes_proper h hsize htext
  | @mixed n p q hn h =>
    refine retypes_mixed hn h hsize ?_ (numerator_le h hsize ha hrounded.symm hclosest) htext
    -- The double is not whole, so that its whole part is not long.
    by_contra hlarge
    have hle := Number.le_rounded (Number.isDouble_two_pow (n := 53) (by norm_num)) (r := 2 ^ 53) (s := |r|) (by
      rw [hsize]
      have : (2 ^ 53 : ℚ) ≤ n := by exact_mod_cast (not_le.mp hlarge).le
      have : (0 : ℚ) ≤ p / q := by positivity
      linarith)
    rw [← Number.abs_rounded, ← hrounded] at hle
    exact hle.not_gt (Number.abs_lt_of_not_whole ha hw)

end Fractions

/-- A result that settings show exactly has a value as an expression, and this is the result again just when the text
has no exponent and is no mixed fraction of the kind that is misread. -/
theorem evaluate_render (ha : toRat? x = some a) (hshown : render settings x = .ok ⟨text, false⟩) :
    ∃ y, Expression.evaluate text = .ok y ∧ ((y == x) = true ↔ ¬Misread text.toList) := by
  suffices h : Retypes text a by
    obtain ⟨y, b, hy, hyb, hiff⟩ := h
    refine ⟨y, hy, ?_⟩
    rw [Number.beq_iff ha, hyb, Option.some_inj, hiff]
  obtain ⟨n, hplaces, -⟩ := Outcome.bind_eq_ok.mp hshown
  have hvalue : Number.toRat x = a := by rw [Number.toRat, ha, Option.getD_some]
  rw [render_eq hplaces ha] at hshown
  split at hshown
  · cases hshown
    exact retypes_display ha
  · next hw =>
    split at hshown
    · obtain ⟨rfl, hflag⟩ := Shown.mk.inj (Except.ok.inj hshown)
      rw [hvalue] at hflag ⊢
      have hround := (bne_eq_false_iff ha).mp hflag
      rw [Number.toRat?_nearest] at hround
      exact retypes_fraction (Number.closestFraction_best (by decide) a).1 (Number.isDouble_of_toRat? ha) hround hw
        Number.closestFraction_of_le
    · obtain ⟨rfl, hflag⟩ := Shown.mk.inj (Except.ok.inj hshown)
      exact retypes_display ((bne_eq_false_iff ha).mp hflag)

/-- A mixed fraction that is read back, since its denominator is ten and its numerator has one digit. -/
theorem evaluate_render_tenth :
    (∃ y, Expression.evaluate "1 1/10" = .ok y ∧ ((y == 1.1) = true ↔ ¬Misread "1 1/10".toList)) ∧
      ¬Misread "1 1/10".toList := by
  have hvalue : toRat? 1.1 = some (2476979795053773 / 2251799813685248) := by decide +kernel
  have hshown : render withFractions 1.1 = .ok ⟨"1 1/10", false⟩ := Outcome.toOption_eq_some.mp (by decide +kernel)
  have hmisread : Misread "1 1/10".toList ↔ 10 ≠ 10 ^ (digitsOfNat 1).length :=
    @misread_mixed_iff 1 10 ['1'] (by decide) (by decide)
  exact ⟨evaluate_render hvalue hshown, hmisread.not.mpr (by decide)⟩

/-- An exponent and a mixed fraction that are read as other numbers. -/
theorem evaluate_not_shown :
    (render Settings.defaults 1e-7 = .ok ⟨"1e-07", false⟩ ∧ Expression.evaluate "1e-07" = .ok (-4.281718171540955) ∧
      ((-4.281718171540955 : Float) == 1e-7) = false) ∧
      render withFractions 1.5 = .ok ⟨"1 1/2", false⟩ ∧ Expression.evaluate "1 1/2" = .ok 5.5 ∧
      ((5.5 : Float) == 1.5) = false := by
  have hspell : Expression.spell "1e-07".toList = "1*(2.718281828459045)-07".toList := by
    rw [Expression.spell, Chunk.spellChunks_eq]
    cbv
  refine ⟨⟨?_, ?_, by decide +kernel⟩, ?_, ?_, by decide +kernel⟩
  · exact Outcome.toOption_eq_some.mp (by decide +kernel)
  · exact @Expression.evaluate_of_stages _ _
      [.numeral ['1'], .mark '*', .mark '(', .numeral "2.718281828459045".toList, .mark ')', .mark '-',
        .numeral ['0', '7']] _ hspell (by cbv) (by decide +kernel)
  · exact Outcome.toOption_eq_some.mp (by decide +kernel)
  · exact @Expression.evaluate_of_stages _ "11/2".toList [.numeral ['1', '1'], .mark '/', .numeral ['2']] _
      (by cbv) (by cbv) (by decide +kernel)

end Display

end Reckoner
