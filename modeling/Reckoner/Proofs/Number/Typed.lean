import Mathlib
import Reckoner.Number.Typed
import Reckoner.Proofs.Number.Displayed

/-!
# Displayed numbers typed in again

What is displayed for a double can be typed in, with its exponent or without one, and is read as the same number
(`exists_typed_display`); this includes the infinities. A display is made of few characters (`mem_display`): there is
no blank, no bracket and no letter `x` among them, so it can be found again where it stands in a longer text.
-/

namespace Reckoner

namespace Text

/-- The digits one by one. -/
def digitChars : List Char :=
  ['0', '1', '2', '3', '4', '5', '6', '7', '8', '9']

lemma mem_digitChars {c : Char} (h : c.isDigit = true) : c ∈ digitChars := by
  obtain ⟨hl, hu⟩ := Char.isDigit_iff_toNat.mp h
  have hzero : '0'.toNat = 48 := rfl
  have hnine : '9'.toNat = 57 := rfl
  rw [← c.ofNat_toNat]
  generalize c.toNat = n at hl hu
  rw [hzero] at hl
  rw [hnine] at hu
  interval_cases n <;> decide

lemma trim_eq_self {s : List Char} (h : ∀ c ∈ s, isBlank c = false) : trim s = s := by
  have hdrop {t : List Char} (ht : ∀ c ∈ t, isBlank c = false) : t.dropWhile isBlank = t := by
    cases t with
    | nil => rfl
    | cons c t => exact List.dropWhile_cons_of_neg (by simp [ht c List.mem_cons_self])
  rw [trim, trimBy, hdrop h, hdrop fun c hc => h c (List.mem_reverse.mp hc), List.reverse_reverse]

end Text

namespace Number

/-- The characters of displayed numbers. -/
def shownChars : List Char :=
  Text.digitChars ++ ['.', 'e', '+', '-', 'N', 'a', 'I', 'n', 'f', 'i', 't', 'y']

lemma mem_shownChars_of_isDigit {c : Char} (h : c.isDigit = true) : c ∈ shownChars := by
  exact List.mem_append_left _ (Text.mem_digitChars h)

end Number

namespace Figures

open Number (shownChars mem_shownChars_of_isDigit)

lemma mem_exponentText {e : Option Int} {c : Char} (h : c ∈ exponentText e) : c ∈ shownChars := by
  cases e with
  | none => cases h
  | some n =>
    rcases List.mem_cons.mp h with rfl | h
    · decide
    rcases List.mem_cons.mp h with rfl | h
    · split <;> decide
    · exact mem_shownChars_of_isDigit (isDigit_exponentDigits n c h)

lemma mem_fractionText {fraction : List Char} (hf : ∀ c ∈ fraction, c.isDigit = true) {c : Char}
    (h : c ∈ fractionText fraction) : c ∈ shownChars := by
  rw [fractionText] at h
  split at h
  · cases h
  · rcases List.mem_cons.mp h with rfl | h
    · decide
    · exact mem_shownChars_of_isDigit (hf c h)

lemma mem_text {f : Figures} {c : Char} (h : c ∈ f.text) : c ∈ shownChars := by
  rcases List.mem_append.mp h with h | h
  · exact mem_shownChars_of_isDigit (f.isDigit_whole c h)
  · rcases List.mem_append.mp h with h | h
    · exact mem_fractionText f.isDigit_fraction h
    · exact mem_exponentText h

lemma head?_exponentText {e : Option Int} : ∀ c ∈ (exponentText e).head?, c = 'e' := by
  cases e with
  | none => nofun
  | some n => exact fun c hc => (Option.some.inj hc).symm

end Figures

namespace Number

variable {x y : Float} {a : ℚ} {s : List Char}

/-- A display is made of few characters. -/
theorem mem_display {c : Char} (h : c ∈ (display x).toList) : c ∈ shownChars := by
  have hwords : ∀ word ∈ ["NaN", "-Infinity", "Infinity"], ∀ c ∈ word.toList, c ∈ shownChars := by
    simp [shownChars]
  have hsign {b : Prop} [Decidable b] {c : Char} (h : c ∈ if b then ['-'] else []) : c ∈ shownChars := by
    split at h
    · obtain rfl := List.mem_singleton.mp h
      decide
    · cases h
  cases ha : toRat? x with
  | none =>
    rw [display, ha] at h
    refine hwords _ ?_ c h
    simp only
    split
    · simp
    · split <;> simp
  | some a =>
    by_cases hw : a.den = 1 ∧ a.num.natAbs < 1000000000000000000000
    · rw [display_of_whole ha hw, ofInt, String.toList_ofList] at h
      rcases List.mem_append.mp h with h | h
      · exact hsign h
      · exact mem_shownChars_of_isDigit (Text.isDigit_digitsOfNat h)
    · obtain ⟨f, htext, -⟩ := exists_figures_text ha
      rw [display_of_not_whole ha hw, htext] at h
      rcases List.mem_append.mp h with h | h
      · exact hsign h
      · exact f.mem_text h

lemma exponent?_exponentText (e : Option Int) : exponent? (Figures.exponentText e) = some (e.getD 0) := by
  cases e with
  | none => rfl
  | some n =>
    have hall : (Figures.exponentDigits n).all Char.isDigit = true :=
      List.all_eq_true.mpr (Figures.isDigit_exponentDigits n)
    have hne : (Figures.exponentDigits n).isEmpty = false := by
      rw [List.isEmpty_eq_false_iff]
      exact Figures.exponentDigits_ne_nil n
    by_cases hn : n < 0
    · rw [Figures.exponentText, if_pos hn, exponent?]
      simp [splitSign, hall, hne, Figures.natOfDigits_exponentDigits, abs_of_neg hn]
    · rw [Figures.exponentText, if_neg hn, exponent?]
      simp [splitSign, hall, hne, Figures.natOfDigits_exponentDigits, abs_of_nonneg (not_lt.mp hn)]

/-- Digits with an optional fraction and exponent are read as the nearest double. -/
lemma decimal?_digits {whole fraction : List Char} {e : Option Int} (hne : whole ≠ [])
    (hw : ∀ c ∈ whole, c.isDigit = true) (hf : ∀ c ∈ fraction, c.isDigit = true) :
    decimal? (whole ++ (Figures.fractionText fraction ++ Figures.exponentText e)) =
      let power : Int := e.getD 0 - fraction.length
      some (Float.ofScientific (Text.natOfDigits (whole ++ fraction)) (power < 0) power.natAbs) := by
  have hempty : ¬(whole.isEmpty = true ∧ fraction.isEmpty = true) := by simp [hne]
  have hexponent := exponent?_exponentText e
  have hstop : ∀ c ∈ (Figures.exponentText e).head?, c.isDigit = false := by
    intro c hc
    rw [Figures.head?_exponentText c hc]
    decide
  have hbehind := @Figures.head?_fractionText fraction _ hstop
  rw [decimal?, Text.takeWhile_append_eq hw hbehind, Text.dropWhile_append_eq hw hbehind, Figures.fractionText]
  by_cases hnil : fraction = []
  · subst hnil
    have hrest : ∀ r, Figures.exponentText e ≠ '.' :: r := by
      intro r hr
      have := Figures.head?_exponentText '.' (by rw [hr]; rfl)
      exact absurd this (by decide)
    rw [if_pos rfl, List.nil_append]
    split
    next p digits behind hcut =>
    have hparts : digits = [] ∧ behind = Figures.exponentText e := by
      split at hcut
      · next r hr => exact absurd hr (hrest r)
      · exact ⟨(Prod.mk.inj hcut).1.symm, (Prod.mk.inj hcut).2.symm⟩
    obtain ⟨rfl, rfl⟩ := hparts
    rw [if_neg hempty, hexponent, Option.map_some]
  · rw [if_neg hnil]
    simp only [List.cons_append, Text.takeWhile_append_eq hf hstop, Text.dropWhile_append_eq hf hstop]
    rw [if_neg hempty, hexponent, Option.map_some]

lemma dropUnderscores?_eq (h : '_' ∉ s) : dropUnderscores? s = some s := by
  induction s using dropUnderscores?.induct with
  | case1 => rfl
  | case2 r => exact absurd List.mem_cons_self h
  | case3 c d r hc hd ih => exact absurd (List.mem_cons_of_mem _ List.mem_cons_self) h
  | case4 c d r hc hd => exact absurd (List.mem_cons_of_mem _ List.mem_cons_self) h
  | case5 c r hc hr ih =>
    rw [dropUnderscores?, ih fun hr => h (List.mem_cons_of_mem _ hr), Option.map_some]
    · exact hc
    · exact hr

/-- Shown characters stand for themselves where numbers are typed. -/
lemma plain_of_shown {c : Char} (h : c ∈ shownChars) :
    Text.isBlank c = false ∧ Text.toAsciiDigit c = c ∧ c ≠ '_' := by
  have hall : shownChars.all fun c => Text.isBlank c = false ∧ Text.toAsciiDigit c = c ∧ c ≠ '_' := by decide
  have hplain : ∀ c ∈ shownChars, Text.isBlank c = false ∧ Text.toAsciiDigit c = c ∧ c ≠ '_' := by
    simpa using hall
  exact hplain c h

lemma dropUnderscores?_shown (h : ∀ c ∈ s, c ∈ shownChars) :
    dropUnderscores? ((Text.trim s).map Text.toAsciiDigit) = some s := by
  have hmap : s.map Text.toAsciiDigit = s :=
    (List.map_congr_left fun c hc => (plain_of_shown (h c hc)).2.1).trans s.map_id'
  rw [Text.trim_eq_self fun c hc => (plain_of_shown (h c hc)).1, hmap]
  exact dropUnderscores?_eq fun hc => (plain_of_shown (h _ hc)).2.2 rfl

/-- What begins with a digit is no word for an infinity or NaN. -/
lemma size?_of_isDigit {c : Char} (hc : c.isDigit = true) (rest : List Char) :
    size? (c :: rest) = decimal? (c :: rest) := by
  have hall : Text.digitChars.all fun c => c.toLower ≠ 'i' ∧ c.toLower ≠ 'n' := by decide
  have hlower : ∀ c ∈ Text.digitChars, c.toLower ≠ 'i' ∧ c.toLower ≠ 'n' := by simpa using hall
  obtain ⟨hi, hn⟩ := hlower c (Text.mem_digitChars hc)
  simp [size?, hi, hn]

/-- A number is typed with a minus sign before its size, or without one. -/
lemma typed?_signed (negative : Bool) (hs : ∃ c t, s = c :: t ∧ c.isDigit = true)
    (hshown : ∀ c ∈ s, c ∈ shownChars) (hx : decimal? s = some x) :
    typed? ((if negative then ['-'] else []) ++ s) = some (if negative then -x else x) := by
  obtain ⟨c, t, rfl, hc⟩ := hs
  have hsize : size? (c :: t) = some x := (size?_of_isDigit hc t).trans hx
  have hplus : splitSign (c :: t) = (false, c :: t) := by
    have hsigns : ∀ c ∈ Text.digitChars, c ≠ '-' ∧ c ≠ '+' := by simp [Text.digitChars]
    obtain ⟨hminus, hplus⟩ := hsigns c (Text.mem_digitChars hc)
    rw [splitSign]
    · intro r hr
      exact hminus (List.cons.inj hr).1
    · intro r hr
      exact hplus (List.cons.inj hr).1
  cases negative with
  | false =>
    rw [if_neg Bool.false_ne_true, List.nil_append, typed?, dropUnderscores?_shown hshown]
    simp only [Option.bind_eq_bind, Option.bind_some, hplus, hsize]
    rfl
  | true =>
    have hall : ∀ d ∈ '-' :: c :: t, d ∈ shownChars := List.forall_mem_cons.mpr ⟨by decide, hshown⟩
    rw [if_pos rfl, List.singleton_append, typed?, dropUnderscores?_shown hall]
    simp only [Option.bind_eq_bind, Option.bind_some, splitSign, hsize]
    rfl

lemma beq_of_toRat? (hx : toRat? x = some a) (hy : toRat? y = some a) : (x == y) = true := by
  rw [beq_eq hx hy, decide_eq_true rfl]

/-- A displayed whole number is typed in as its digits. -/
lemma exists_typed_ofInt {n : ℤ} (hx : toRat? x = some (n : ℚ)) :
    ∃ y, typed? (ofInt n).toList = some y ∧ toRat? y = some (n : ℚ) := by
  obtain ⟨c, t, hs⟩ := List.exists_cons_of_ne_nil (Text.digitsOfNat_ne_nil n.natAbs)
  have hdigits : ∀ c ∈ Text.digitsOfNat n.natAbs, c.isDigit = true := fun c => Text.isDigit_digitsOfNat
  have hread := @decimal?_digits _ [] none (Text.digitsOfNat_ne_nil n.natAbs) hdigits (by simp)
  rw [Figures.fractionText, if_pos rfl, Figures.exponentText, List.append_nil, List.append_nil,
    Text.natOfDigits_digitsOfNat] at hread
  have hsize : toRat? (Float.ofScientific n.natAbs (decide ((0 : ℤ) < 0)) (0 : ℤ).natAbs) = some |(n : ℚ)| := by
    rw [toRat?_scientific, zpow_zero, mul_one, Nat.cast_natAbs, Int.cast_abs]
    exact round?_of_isDouble (isDouble_of_toRat? (toRat?_abs hx))
  have htyped := typed?_signed (n < 0) ⟨c, t, hs, hdigits c (by rw [hs]; exact List.mem_cons_self)⟩
    (fun c hc => mem_shownChars_of_isDigit (hdigits c hc)) hread
  have hrestore := toRat?_restore hsize
  simp only [decide_eq_true_eq, Int.cast_lt_zero] at htyped hrestore
  rw [ofInt, String.toList_ofList]
  exact ⟨_, htyped, hrestore⟩

/-- A full form of a finite double is typed in through its figures. -/
lemma typed?_text (hx : toRat? x = some a) : typed? (text x).toList = some x := by
  obtain ⟨f, htext, hvalue⟩ := exists_figures_text hx
  obtain ⟨c, t, hs⟩ := List.exists_cons_of_ne_nil f.whole_ne_nil
  have hcons : f.text = c :: (t ++ (Figures.fractionText f.fraction ++ Figures.exponentText f.exponent)) := by
    rw [Figures.text, hs, List.cons_append]
  have hdigit := f.isDigit_whole c (by rw [hs]; exact List.mem_cons_self)
  have hread : decimal? f.text = some f.size := decimal?_digits f.whole_ne_nil f.isDigit_whole f.isDigit_fraction
  rw [htext, typed?_signed _ ⟨c, _, hcons, hdigit⟩ (fun c => f.mem_text) hread, hvalue]

/-- What is displayed for a number or an infinity is typed in as the same. -/
theorem exists_typed_display (hx : x.isNaN = false) :
    ∃ y, typed? (display x).toList = some y ∧ (y == x) = true := by
  cases ha : toRat? x with
  | none =>
    obtain ⟨hnan, -⟩ | ⟨-, hs, rfl⟩ | ⟨-, hs, rfl⟩ := cases_notFinite ha
    · rw [hx] at hnan
      cases hnan
    · refine ⟨-(1 / 0), ?_, by decide +kernel⟩
      rw [display, ha, hx]
      simp only [hs]
      decide
    · refine ⟨1 / 0, ?_, by decide +kernel⟩
      rw [display, ha, hx]
      simp only [hs]
      decide
  | some a =>
    by_cases hw : a.den = 1 ∧ a.num.natAbs < 1000000000000000000000
    · have hnum : (a.num : ℚ) = a := (Rat.den_eq_one_iff a).mp hw.1
      rw [← hnum] at ha
      obtain ⟨y, hy, hvalue⟩ := exists_typed_ofInt ha
      rw [hnum] at ha
      rw [display_of_whole ha hw]
      exact ⟨y, hy, beq_of_toRat? hvalue (hnum ▸ ha)⟩
    · rw [display_of_not_whole ha hw]
      exact ⟨x, typed?_text ha, beq_of_toRat? ha ha⟩

/-- What equals the infinity is the infinity. -/
lemma eq_infinity_of_beq (h : (y == 1 / 0) = true) : y = 1 / 0 := by
  apply eq_of_unpack_eq
  change (Float.Model.UnpackedFloat.compare y.toModel.unpack (.infinity .positive) == some .eq) = true at h
  change _ = Float.Model.UnpackedFloat.infinity .positive
  generalize y.toModel.unpack = u at h
  cases u with
  | infinity s =>
    cases s with
    | negative => cases h
    | positive => rfl
  | zero s => cases h
  | finite s m e hm => cases s <;> cases h
  | notANumber => cases h

lemma isNaN_abs (x : Float) : x.abs.isNaN = x.isNaN := by
  change x.abs.toModel.unpack.isNaN = x.toModel.unpack.isNaN
  rw [unpack_abs]
  cases x.toModel.unpack <;> rfl

/-- The size of a number with its sign is the number again, and so it is with an infinity. -/
theorem restore_beq (hx : x.isNaN = false) (hy : (y == x.abs) = true) :
    ((if x < 0 then -y else y) == x) = true := by
  cases ha : toRat? x with
  | none =>
    obtain ⟨hnan, -⟩ | ⟨-, -, rfl⟩ | ⟨-, -, rfl⟩ := cases_notFinite ha
    · rw [hx] at hnan
      cases hnan
    · have habs : (-1 / 0 : Float).abs = 1 / 0 := eq_of_unpack_eq rfl
      rw [habs] at hy
      rw [eq_infinity_of_beq hy]
      decide +kernel
    · have habs : (1 / 0 : Float).abs = 1 / 0 := eq_of_unpack_eq rfl
      rw [habs] at hy
      rw [eq_infinity_of_beq hy]
      decide +kernel
  | some a =>
    have hrestore := toRat?_restore (toRat?_of_beq hy (toRat?_abs ha))
    simp only [← (lt_iff ha toRat?_zero)] at hrestore
    exact beq_of_toRat? hrestore ha

end Number

end Reckoner
