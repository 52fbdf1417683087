import Mathlib
import Reckoner.Json.Token
import Reckoner.Json.Writer
import Reckoner.Proofs.Number.Written

/-!
# Written words of JSON

A word that is written for a scalar is read as that scalar, whatever comes behind it, as long as that does not go
on with a number (`token?_writeScalar`). A text comes back code point by code point, whether one stands for itself,
for an escape or for a pair of 16-bit units (`units?_writePoint`), except that a high surrogate with a low one behind
it would come back as a single character (`Unpaired`). A whole number comes back with its digits, a double through
its figures.
-/

namespace Reckoner

/-- No high surrogate of the text has a low one directly behind it. -/
def Unpaired (s : List CodePoint) : Prop :=
  s.IsChain fun p q => ¬(p.isHigh ∧ q.isLow)

instance (s : List CodePoint) : Decidable (Unpaired s) :=
  inferInstanceAs (Decidable (s.IsChain _))

namespace Json

section Text

variable {n : ℕ} {c : Char} {p : CodePoint}

/-- Joins the units of a character to those that follow. -/
def addUnits (us : List ℕ) (p : List ℕ × List Char) : List ℕ × List Char :=
  (us ++ p.1, p.2)

lemma hexValue?_digitChar : ∀ d < 16, hexValue? (Nat.digitChar d) = some d := by
  decide

/-- The last of at least two hexadecimal digits. -/
lemma hex_succ {width : ℕ} (h : 0 < width) (n : ℕ) :
    Text.hex (width + 1) n = Text.hex width (n / 16) ++ [Nat.digitChar (n % 16)] := by
  simp only [Text.hex]
  rw [Nat.toDigits_eq_if (by norm_num)]
  split
  · next hlt =>
    obtain ⟨k, rfl⟩ := Nat.exists_eq_succ_of_ne_zero h.ne'
    rw [Nat.div_eq_of_lt hlt, Nat.mod_eq_of_lt hlt, List.append_cancel_right_eq, Nat.toDigits_zero,
      List.length_singleton, List.length_singleton]
    exact List.replicate_succ'
  · rw [List.length_append, List.length_singleton, Nat.add_sub_add_right, List.append_assoc]

lemma hex_four (h : n < 0x10000) :
    Text.hex 4 n = [Nat.digitChar (n / 4096), Nat.digitChar (n / 256 % 16), Nat.digitChar (n / 16 % 16),
      Nat.digitChar (n % 16)] := by
  have hone : Text.hex 1 (n / 16 / 16 / 16) = [Nat.digitChar (n / 4096)] := by
    rw [Text.hex, Nat.div_div_eq_div_mul, Nat.div_div_eq_div_mul, Nat.toDigits_of_lt_base (by omega)]
    rfl
  rw [hex_succ (by norm_num), hex_succ (by norm_num), hex_succ (by norm_num), hone, Nat.div_div_eq_div_mul]
  rfl

lemma unit?_hex (h : n < 0x10000) :
    unit? (Nat.digitChar (n / 4096)) (Nat.digitChar (n / 256 % 16)) (Nat.digitChar (n / 16 % 16))
      (Nat.digitChar (n % 16)) = some n := by
  rw [unit?, hexValue?_digitChar _ (by omega), hexValue?_digitChar _ (by omega),
    hexValue?_digitChar _ (by omega), hexValue?_digitChar _ (by omega)]
  simp only [Option.bind_eq_bind, Option.bind_some, Option.pure_def, Option.some_inj]
  omega

/-- A unit is read from its escape. -/
lemma units?_escape (h : n < 0x10000) (rest : List Char) :
    units? (escape n ++ rest) = (units? rest).map (addUnits [n]) := by
  rw [escape, hex_four h]
  simp only [List.cons_append, List.nil_append, units?, unit?_hex h, Option.bind_eq_bind, Option.bind_some]
  cases units? rest <;> rfl

/-- A character is read from the letter for it. -/
lemma units?_letter {l : Char} (hl : l ≠ 'u') (h : escaped? l = some c) (rest : List Char) :
    units? ('\\' :: l :: rest) = (units? rest).map (addUnits [c.toNat]) := by
  rw [units?.eq_4 l rest (fun _ _ _ _ _ h => absurd h hl), h]
  cases units? rest <;> rfl

/-- A character that is neither a quote nor a backslash nor a control character stands for itself. -/
lemma units?_plain (hq : c ≠ '"') (hb : c ≠ '\\') (hc : ¬c.toNat < 0x20) (rest : List Char) :
    units? (c :: rest) = (units? rest).map (addUnits [c.toNat]) := by
  rw [units?.eq_5 c rest hq (fun _ _ _ _ _ h => absurd h hb) (fun _ _ h => absurd h hb), if_neg (by tauto)]
  cases units? rest <;> rfl

/-- A character is no surrogate. -/
lemma toNat_cases (c : Char) : c.toNat < 0xD800 ∨ 0xDFFF < c.toNat ∧ c.toNat < 0x110000 :=
  c.valid

lemma ofNat_toNat (p : CodePoint) : CodePoint.ofNat p.toNat = p := by
  cases p with
  | char c =>
    have hc := toNat_cases c
    rw [CodePoint.toNat, CodePoint.ofNat, dif_neg (by omega), Char.ofNat_toNat]
  | surrogate index =>
    have hlt := index.isLt
    rw [CodePoint.toNat, CodePoint.ofNat, dif_pos (by omega)]
    simp

/-- The unit is the second one of a pair. -/
def IsLowUnit (u : ℕ) : Prop :=
  0xDC00 ≤ u ∧ u < 0xE000

lemma isLow_of_isLowUnit (h : IsLowUnit p.toNat) : p.isLow = true := by
  obtain ⟨hle, hlt⟩ := h
  cases p with
  | char c =>
    have hc := toNat_cases c
    rw [CodePoint.toNat] at hle hlt
    omega
  | surrogate index =>
    rw [CodePoint.toNat] at hle
    rw [CodePoint.isLow, decide_eq_true_eq]
    omega

/-- A number in the range of the high units is the number of a high surrogate. -/
lemma isHigh_of_range (hle : 0xD800 ≤ p.toNat) (hlt : p.toNat < 0xDC00) : p.isHigh = true := by
  cases p with
  | char c =>
    have hc := toNat_cases c
    rw [CodePoint.toNat] at hle hlt
    omega
  | surrogate index =>
    rw [CodePoint.toNat] at hlt
    rw [CodePoint.isHigh, decide_eq_true_eq]
    omega

/-- A number stands for its code point, unless it makes a character with the number behind it. -/
lemma ofUnits_point {more : List ℕ} (h : p.isHigh = true → ∀ u ∈ more.head?, ¬IsLowUnit u) :
    ofUnits (p.toNat :: more) = p :: ofUnits more := by
  cases more with
  | nil => rw [ofUnits.eq_2, ofNat_toNat, ofUnits.eq_1]
  | cons m rest =>
    have hpair : ¬(0xD800 ≤ p.toNat ∧ p.toNat < 0xDC00 ∧ 0xDC00 ≤ m ∧ m < 0xE000) := by
      rintro ⟨hle, hlt, hm⟩
      exact h (isHigh_of_range hle hlt) m rfl hm
    rw [ofUnits.eq_3, if_neg hpair, ofNat_toNat]

/-- A high unit and a low one make a character. -/
lemma ofUnits_pair (h : 0x10000 ≤ c.toNat) (more : List ℕ) :
    ofUnits ([0xD800 + (c.toNat - 0x10000) / 0x400, 0xDC00 + (c.toNat - 0x10000) % 0x400] ++ more) =
      .char c :: ofUnits more := by
  have hc := toNat_cases c
  rw [List.cons_append, List.singleton_append, ofUnits.eq_3, if_pos (by omega)]
  have hn : 0x10000 + (0xD800 + (c.toNat - 0x10000) / 0x400 - 0xD800) * 0x400 +
      (0xDC00 + (c.toNat - 0x10000) % 0x400 - 0xDC00) = c.toNat := by omega
  rw [hn, ← CodePoint.toNat.eq_1, ofNat_toNat]

lemma addUnits_addUnits (us vs : List ℕ) (p : Option (List ℕ × List Char)) :
    (p.map (addUnits vs)).map (addUnits us) = p.map (addUnits (us ++ vs)) := by
  cases p with
  | none => rfl
  | some p => rw [Option.map_some, Option.map_some, Option.map_some, addUnits, addUnits, addUnits, List.append_assoc]

/-- What is written is read in units that make the code point, as long as it is no high surrogate with a low unit
behind it; the first unit is a low one only if the code point is a low surrogate. -/
def WrittenAs (w : List Char) (p : CodePoint) : Prop :=
  ∃ us, us ≠ [] ∧ (∀ rest, units? (w ++ rest) = (units? rest).map (addUnits us)) ∧
    (∀ u ∈ us.head?, IsLowUnit u → p.isLow = true) ∧
    ∀ more, (p.isHigh = true → ∀ u ∈ more.head?, ¬IsLowUnit u) → ofUnits (us ++ more) = p :: ofUnits more

/-- What is read as the number of a code point is written for it. -/
lemma WrittenAs.of_units {w : List Char}
    (h : ∀ rest, units? (w ++ rest) = (units? rest).map (addUnits [p.toNat])) : WrittenAs w p := by
  refine ⟨[p.toNat], List.cons_ne_nil _ _, h, fun u hu hlow => ?_, fun more hmore => ofUnits_point hmore⟩
  rw [← Option.some.inj hu] at hlow
  exact isLow_of_isLowUnit hlow

/-- A character is read from the escapes of its units. -/
lemma writtenAs_unitEscapes (c : Char) : WrittenAs (unitEscapes c.toNat) (.char c) := by
  have hc := toNat_cases c
  by_cases h : c.toNat < 0x10000
  · refine .of_units fun rest => ?_
    rw [unitEscapes, if_pos h]
    exact units?_escape h rest
  · have hle : 0x10000 ≤ c.toNat := not_lt.mp h
    have hhigh : 0xD800 + (c.toNat - 0x10000) / 0x400 < 0x10000 := by omega
    have hlow : 0xDC00 + (c.toNat - 0x10000) % 0x400 < 0x10000 := by omega
    refine ⟨[0xD800 + (c.toNat - 0x10000) / 0x400, 0xDC00 + (c.toNat - 0x10000) % 0x400], List.cons_ne_nil _ _,
      fun rest => ?_, fun u hu hlow => ?_, fun more _ => ofUnits_pair hle more⟩
    · rw [unitEscapes, if_neg h, List.append_assoc, units?_escape hhigh, units?_escape hlow, addUnits_addUnits,
        List.singleton_append]
    · have hu := Option.some.inj hu
      obtain ⟨hu', -⟩ := hlow
      omega

/-- A code point is read from what is written for it. -/
theorem units?_writePoint (p : CodePoint) : WrittenAs (writePoint p) p := by
  cases p with
  | surrogate index =>
    have hlt := index.isLt
    have hn : (CodePoint.surrogate index).toNat < 0x10000 := by
      rw [CodePoint.toNat]
      omega
    exact .of_units (units?_escape hn)
  | char c =>
    rw [writePoint.eq_def]
    simp only
    split
    case h_8 _ hq hb _ _ _ _ _ =>
      split
      · exact writtenAs_unitEscapes c
      · next h => exact .of_units (units?_plain hq hb (by tauto))
    all_goals exact .of_units (units?_letter (by decide) rfl)

/-- A written text without a pair of surrogates is read in units that make the text; the first of them is a low one
only if the text begins with a low surrogate. -/
theorem units?_writeText {s : List CodePoint} (h : Unpaired s) (rest : List Char) :
    ∃ us, units? (s.flatMap writePoint ++ '"' :: rest) = some (us, rest) ∧ ofUnits us = s ∧
      ∀ u ∈ us.head?, IsLowUnit u → ∃ p ∈ s.head?, p.isLow = true := by
  induction s with
  | nil => exact ⟨[], by rw [List.flatMap_nil, List.nil_append, units?], rfl, by simp⟩
  | cons p s ih =>
    rw [Unpaired, List.isChain_cons] at h
    obtain ⟨us, hread, hs, hfirst⟩ := ih h.2
    obtain ⟨vs, hne, hpoint, hlow, hp⟩ := units?_writePoint p
    have hbehind : p.isHigh = true → ∀ u ∈ us.head?, ¬IsLowUnit u := by
      intro hhigh u hu hlow
      obtain ⟨q, hq, hqlow⟩ := hfirst u hu hlow
      exact h.1 q hq ⟨hhigh, hqlow⟩
    refine ⟨vs ++ us, ?_, by rw [hp us hbehind, hs], fun u hu hlowu => ⟨p, rfl, ?_⟩⟩
    · rw [List.flatMap_cons, List.append_assoc, hpoint, hread]
      rfl
    · rw [List.head?_append_of_ne_nil vs hne] at hu
      exact hlow u hu hlowu

end Text

section Number

variable {rest after digits : List Char} {c : Char} {e : Option Int}

/-- What comes behind a word does not go on with a number. -/
def Ends (rest : List Char) : Prop :=
  ∀ c ∈ rest.head?, c.isDigit = false ∧ c ≠ '.' ∧ c ≠ 'e' ∧ c ≠ 'E'

lemma splitFraction_of_ne (h : ∀ c ∈ rest.head?, c ≠ '.') : splitFraction rest = ([], rest) := by
  rw [splitFraction.eq_def]
  split
  · exact absurd rfl (h '.' rfl)
  · rfl

/-- A fraction is read to its end. -/
lemma splitFraction_fractionText (hd : ∀ c ∈ digits, c.isDigit = true)
    (ha : ∀ c ∈ after.head?, c.isDigit = false ∧ c ≠ '.') :
    splitFraction (Figures.fractionText digits ++ after) = (digits, after) := by
  rw [Figures.fractionText]
  split
  · next h =>
    rw [h]
    exact splitFraction_of_ne fun c hc => (ha c hc).2
  · next h =>
    have hstop : ∀ c ∈ after.head?, c.isDigit = false := fun c hc => (ha c hc).1
    rw [List.cons_append, splitFraction, Text.takeWhile_append_eq hd hstop, Text.dropWhile_append_eq hd hstop,
      if_neg (by simpa using h)]

lemma splitExponent_of_ne (h : ∀ c ∈ rest.head?, c ≠ 'e' ∧ c ≠ 'E') : splitExponent rest = (none, rest) := by
  cases rest with
  | nil => rfl
  | cons c rest =>
    obtain ⟨he, hE⟩ := h c rfl
    exact if_neg (by tauto)

/-- An exponent is read to its end. -/
lemma splitExponent_exponentText (hr : Ends rest) :
    splitExponent (Figures.exponentText e ++ rest) = (e, rest) := by
  cases e with
  | none => exact splitExponent_of_ne fun c hc => (hr c hc).2.2
  | some n =>
    have hstop : ∀ c ∈ rest.head?, c.isDigit = false := fun c hc => (hr c hc).1
    have htake := Text.takeWhile_append_eq (Figures.isDigit_exponentDigits n) hstop
    have hdrop := Text.dropWhile_append_eq (Figures.isDigit_exponentDigits n) hstop
    by_cases hn : n < 0
    · rw [Figures.exponentText, if_pos hn, List.cons_append, List.cons_append, splitExponent]
      simp only [Number.splitSign, htake, hdrop, Figures.natOfDigits_exponentDigits]
      simp [Figures.exponentDigits_ne_nil, abs_of_neg hn]
    · rw [Figures.exponentText, if_neg hn, List.cons_append, List.cons_append, splitExponent]
      simp only [Number.splitSign, htake, hdrop, Figures.natOfDigits_exponentDigits]
      simp [Figures.exponentDigits_ne_nil, abs_of_nonneg (not_lt.mp hn)]

/-- A number is cut behind its whole digits, of which a leading zero is the only one. -/
lemma number?_eq {negative : Bool} {whole fraction mid : List Char} (hne : whole ≠ [])
    (hw : ∀ c ∈ whole, c.isDigit = true) (hlead : whole = ['0'] ∨ whole.head? ≠ some '0')
    (hr : ∀ c ∈ rest.head?, c.isDigit = false) (hf : splitFraction rest = (fraction, mid))
    (he : splitExponent mid = (e, after)) :
    number? negative (whole ++ rest) =
      if fraction = [] ∧ e = none then some (.integer negative whole, after)
      else
        let power := e.getD 0 - fraction.length
        let size := Float.ofScientific (Text.natOfDigits (whole ++ fraction)) (power < 0) power.natAbs
        some (.scalar (.float (if negative then -size else size)), after) := by
  rw [number?.eq_def]
  split
  next digits behind hcut =>
    have hparts : digits = whole ∧ behind = rest := by
      split at hcut
      · next r hzero =>
        obtain rfl | hhead := hlead
        · obtain ⟨rfl, rfl⟩ := Prod.mk.inj hcut
          exact ⟨rfl, (List.cons.inj hzero).2.symm⟩
        · rw [← List.head?_append_of_ne_nil whole hne, hzero] at hhead
          exact absurd rfl hhead
      · obtain ⟨rfl, rfl⟩ := Prod.mk.inj hcut
        exact ⟨Text.takeWhile_append_eq hw hr, Text.dropWhile_append_eq hw hr⟩
    obtain ⟨rfl, rfl⟩ := hparts
    rw [if_neg (by simpa using hne), hf]
    simp only [he, List.isEmpty_iff]

/-- Digits alone are read as an integer. -/
lemma number?_digits {negative : Bool} {whole : List Char} (hne : whole ≠ [])
    (hw : ∀ c ∈ whole, c.isDigit = true) (hlead : whole = ['0'] ∨ whole.head? ≠ some '0') (hr : Ends rest) :
    number? negative (whole ++ rest) = some (.integer negative whole, rest) := by
  rw [number?_eq hne hw hlead (fun c hc => (hr c hc).1) (splitFraction_of_ne fun c hc => (hr c hc).2.1)
    (splitExponent_of_ne fun c hc => (hr c hc).2.2), if_pos ⟨rfl, rfl⟩]

lemma head?_exponentText (hr : Ends rest) :
    ∀ c ∈ (Figures.exponentText e ++ rest).head?, c.isDigit = false ∧ c ≠ '.' := by
  cases e with
  | none => exact fun c hc => ⟨(hr c hc).1, (hr c hc).2.1⟩
  | some n =>
    rintro c hc
    obtain rfl : 'e' = c := Option.some.inj hc
    decide

/-- Figures are read as the double that they denote. -/
lemma number?_figures {negative : Bool} (f : Figures) (hr : Ends rest) :
    number? negative (f.text ++ rest) =
      some (.scalar (.float (if negative then -f.size else f.size)), rest) := by
  have hexponent := head?_exponentText (e := f.exponent) hr
  rw [Figures.text, List.append_assoc, List.append_assoc, number?_eq f.whole_ne_nil f.isDigit_whole f.leading
    (Figures.head?_fractionText fun c hc => (hexponent c hc).1) (splitFraction_fractionText f.isDigit_fraction hexponent)
    (splitExponent_exponentText hr), if_neg (fun h => f.not_whole h.1 h.2)]
  rfl

end Number

section Token

variable {rest : List Char} {c : Char}

lemma mark?_of_isDigit (hc : c.isDigit = true) : mark? c = none := by
  rw [mark?.eq_def]
  split
  case h_7 => rfl
  all_goals exact absurd hc (by decide)

/-- No bare word has a digit at its start or behind a minus sign. -/
lemma bareWords_head : ∀ entry ∈ bareWords,
    ∃ l w, entry.1 = l :: w ∧ l.isDigit = false ∧ (l = '-' → w.head?.map Char.isDigit = some false) := by
  simp only [bareWords, List.forall_mem_cons]
  refine ⟨⟨_, _, rfl, by decide⟩, ⟨_, _, rfl, by decide⟩, ⟨_, _, rfl, by decide⟩, ⟨_, _, rfl, by decide⟩,
    ⟨_, _, rfl, by decide⟩, ⟨_, _, rfl, by decide⟩, by simp⟩

lemma bareWord?_of_isDigit (hc : c.isDigit = true) (rest : List Char) : bareWord? (c :: rest) = none := by
  rw [bareWord?, Option.map_eq_none_iff, List.find?_eq_none]
  intro entry hentry hstart
  obtain ⟨l, w, hword, hl, -⟩ := bareWords_head entry hentry
  rw [hword, List.isPrefixOf_cons_cons, Bool.and_eq_true, beq_iff_eq] at hstart
  rw [hstart.1, hc] at hl
  cases hl

lemma bareWord?_minus (hc : c.isDigit = true) (rest : List Char) : bareWord? ('-' :: c :: rest) = none := by
  rw [bareWord?, Option.map_eq_none_iff, List.find?_eq_none]
  intro entry hentry hstart
  obtain ⟨l, w, hword, -, hw⟩ := bareWords_head entry hentry
  rw [hword, List.isPrefixOf_cons_cons, Bool.and_eq_true, beq_iff_eq] at hstart
  obtain ⟨hl, hstart⟩ := hstart
  cases w with
  | nil => cases hw hl
  | cons d w =>
    rw [List.isPrefixOf_cons_cons, Bool.and_eq_true, beq_iff_eq] at hstart
    have hd : d.isDigit = false := Option.some.inj (hw hl)
    rw [hstart.1, hc] at hd
    cases hd

/-- A text that begins with a digit is read as a number. -/
lemma token?_of_isDigit (hc : c.isDigit = true) (rest : List Char) :
    token? (c :: rest) = number? false (c :: rest) := by
  have hquote : c ≠ '"' := by
    rintro rfl
    cases hc
  have hminus : c ≠ '-' := by
    rintro rfl
    cases hc
  simp only [token?, mark?_of_isDigit hc, if_neg hquote, bareWord?_of_isDigit hc, Option.none_or, if_neg hminus]

/-- A minus sign with a digit behind it is the start of a number. -/
lemma token?_minus (hc : c.isDigit = true) (rest : List Char) :
    token? ('-' :: c :: rest) = number? true (c :: rest) := by
  have hmark : mark? '-' = none := rfl
  simp only [token?, hmark, bareWord?_minus hc, Option.none_or]
  rfl

/-- A text that begins with a digit, behind a minus sign or not, is read as a number. -/
lemma token?_signed (negative : Bool) {s : List Char} (hs : ∃ c t, s = c :: t ∧ c.isDigit = true) :
    token? ((if negative then ['-'] else []) ++ s) = number? negative s := by
  obtain ⟨c, t, rfl, hc⟩ := hs
  cases negative with
  | true => exact token?_minus hc _
  | false => exact token?_of_isDigit hc _

lemma exists_digit {digits : List Char} (hne : digits ≠ []) (hd : ∀ c ∈ digits, c.isDigit = true)
    (rest : List Char) : ∃ c t, digits ++ rest = c :: t ∧ c.isDigit = true := by
  obtain ⟨c, t, rfl⟩ := List.exists_cons_of_ne_nil hne
  exact ⟨c, t ++ rest, rfl, hd c List.mem_cons_self⟩

/-- The token as which a written scalar is read. -/
def Scalar.token : Scalar → Token
  | int n => .integer (n < 0) (Text.digitsOfNat n.natAbs)
  | s => .scalar s

/-- A whole number is read with its digits. -/
lemma token?_int (n : Int) (hr : Ends rest) :
    token? (writeScalar (.int n) ++ rest) = some (Scalar.token (.int n), rest) := by
  have hlead : Text.digitsOfNat n.natAbs = ['0'] ∨ (Text.digitsOfNat n.natAbs).head? ≠ some '0' := by
    rcases Nat.eq_zero_or_pos n.natAbs with h | h
    · exact .inl (by rw [h]; rfl)
    · exact .inr (Text.head?_digitsOfNat h)
  have hd : ∀ c ∈ Text.digitsOfNat n.natAbs, c.isDigit = true := fun c => Text.isDigit_digitsOfNat
  have hne := Text.digitsOfNat_ne_nil n.natAbs
  have hsign := token?_signed (n < 0) (exists_digit hne hd rest)
  rw [number?_digits hne hd hlead hr] at hsign
  rw [writeScalar, Number.ofInt, String.toList_ofList, List.append_assoc]
  simp only [decide_eq_true_eq] at hsign
  exact hsign

/-- A finite double is read through its figures. -/
lemma token?_finite {x : Float} {a : ℚ} (ha : Number.toRat? x = some a) (hr : Ends rest) :
    token? ((Number.text x).toList ++ rest) = some (.scalar (.float x), rest) := by
  obtain ⟨f, htext, hx⟩ := Number.exists_figures_text ha
  have hdigit : ∃ c t, f.text ++ rest = c :: t ∧ c.isDigit = true := by
    rw [Figures.text, List.append_assoc]
    exact exists_digit f.whole_ne_nil f.isDigit_whole _
  rw [htext, List.append_assoc, token?_signed _ hdigit, number?_figures f hr, hx]

/-- A double without a size is read from the bare word for it. -/
lemma token?_notFinite {x : Float} (hx : Number.toRat? x = none) :
    token? ((Number.display x).toList ++ rest) = some (.scalar (.float x), rest) := by
  rw [Number.display, hx]
  obtain ⟨hnan, rfl⟩ | ⟨hnan, hs, rfl⟩ | ⟨hnan, hs, rfl⟩ := Number.cases_notFinite hx
  · simp only [hnan]
    rfl
  · simp only [hnan, hs]
    rfl
  · simp only [hnan, hs]
    rfl

/-- No word begins with a space. -/
lemma token?_space (hc : isSpace c = true) (rest : List Char) : token? (c :: rest) = none := by
  simp only [isSpace, Bool.or_eq_true, decide_eq_true_eq] at hc
  obtain ((rfl | rfl) | rfl) | rfl := hc <;> rfl

/-- A text is legible if it has no pair of surrogates. -/
def Scalar.IsLegible : Scalar → Prop
  | text s => Unpaired s
  | _ => True

/-- A scalar is read from what is written for it. -/
theorem token?_writeScalar {s : Scalar} (hs : s.IsLegible) (hr : Ends rest) :
    token? (writeScalar s ++ rest) = some (s.token, rest) := by
  cases s with
  | null => rfl
  | bool b => cases b <;> rfl
  | int n => exact token?_int n hr
  | float x =>
    rw [writeScalar, writeFloat]
    split
    · next h =>
      obtain ⟨a, ha⟩ := (Number.isFinite_iff x).mp h
      exact token?_finite ha hr
    · next h =>
      rw [Number.isFinite_iff, ← Option.isSome_iff_exists, Bool.not_eq_true, Option.isSome_eq_false_iff,
        Option.isNone_iff_eq_none] at h
      exact token?_notFinite h
  | text s =>
    obtain ⟨us, hread, htext, -⟩ := units?_writeText hs rest
    have hmark : mark? '"' = none := rfl
    rw [writeScalar, writeText, List.cons_append, List.append_assoc, List.singleton_append]
    simp only [token?, hmark, hread, if_pos, Option.map_some, htext]
    rfl

end Token

end Json

end Reckoner
