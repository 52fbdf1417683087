import Mathlib
import Reckoner.Proofs.Json.RoundTrip
import Reckoner.Proofs.Number.Scientific

/-!
# Fragments of words

The beginning of what is written for a scalar is cut into words, no punctuation mark among them, and their integers have
no more digits than are read (`exists_words`). A number or a bare word that is cut leaves numbers and what is no word of
JSON at all (`lexes_words`); a text without its closing quote is none either (`lexes_unclosed`).
-/

namespace Reckoner

namespace Json

section Words

variable {s after rest : List Char} {t : Token} {c : Char} {negative : Bool}

/-- The token is no punctuation mark and, as an integer, has not too many digits. -/
def Token.IsWord : Token → Prop
  | .scalar _ | .invalid => True
  | .integer _ digits => digits.length ≤ Number.maxWholeDigits
  | _ => False

/-- The character is no punctuation mark and no quote. -/
def isPlain (c : Char) : Bool :=
  (mark? c).isNone && c != '"'

lemma isPlain_of_isDigit (hc : c.isDigit = true) : isPlain c = true := by
  have hquote : c ≠ '"' := by
    rintro rfl
    cases hc
  rw [isPlain, mark?_of_isDigit hc, bne_iff_ne.mpr hquote]
  rfl

lemma splitFraction_suffix (s : List Char) : (splitFraction s).2 <:+ s := by
  rw [splitFraction.eq_def]
  split
  · next rest =>
    simp only
    split
    · exact List.suffix_rfl
    · exact (List.dropWhile_suffix _).trans (List.suffix_cons _ _)
  · exact List.suffix_rfl

lemma splitSign_suffix (s : List Char) : (Number.splitSign s).2 <:+ s := by
  rw [Number.splitSign.eq_def]
  split
  · exact List.suffix_cons _ _
  · exact List.suffix_cons _ _
  · exact List.suffix_rfl

lemma splitExponent_suffix (s : List Char) : (splitExponent s).2 <:+ s := by
  cases s with
  | nil => exact List.suffix_rfl
  | cons e rest =>
    rw [splitExponent]
    simp only
    split
    · exact ((List.dropWhile_suffix _).trans (splitSign_suffix rest)).trans (List.suffix_cons e rest)
    · exact List.suffix_rfl

/-- Digits that begin a text are not more than the digits of the text. -/
lemma length_le_countP {digits : List Char} (hd : ∀ c ∈ digits, c.isDigit = true) (hs : s = digits ++ rest) :
    digits.length ≤ s.countP Char.isDigit := by
  rw [hs, List.countP_append, List.countP_eq_length.mpr hd]
  omega

/-- A number takes something from the text, and an integer takes its digits. -/
lemma number?_some (h : number? negative s = some (t, after)) :
    ∃ w, w ≠ [] ∧ s = w ++ after ∧ (s.countP Char.isDigit ≤ Number.maxWholeDigits → t.IsWord) := by
  rw [number?.eq_def] at h
  split at h
  next digits behind hcut =>
    have hparts : s = digits ++ behind ∧ ∀ c ∈ digits, c.isDigit = true := by
      split at hcut
      · obtain ⟨rfl, rfl⟩ := Prod.mk.inj hcut
        exact ⟨rfl, by simp⟩
      · obtain ⟨rfl, rfl⟩ := Prod.mk.inj hcut
        exact ⟨(List.takeWhile_append_dropWhile ..).symm, fun c hc => List.mem_takeWhile_imp hc⟩
    obtain ⟨hs, hd⟩ := hparts
    have hfraction := splitFraction_suffix behind
    have hexponent := splitExponent_suffix (splitFraction behind).2
    split at h
    · cases h
    · next hne =>
      have hne : digits ≠ [] := by simpa using hne
      simp only at h
      obtain ⟨mid, hmid⟩ := hexponent.trans hfraction
      refine ⟨digits ++ mid, by simp [hne], ?_, fun hcount => ?_⟩
      · split at h
        · rw [← (Prod.mk.inj (Option.some.inj h)).2, List.append_assoc, hmid, hs]
        · rw [← (Prod.mk.inj (Option.some.inj h)).2, List.append_assoc, hmid, hs]
      · split at h
        · rw [← (Prod.mk.inj (Option.some.inj h)).1]
          exact (length_le_countP hd hs).trans hcount
        · rw [← (Prod.mk.inj (Option.some.inj h)).1]
          trivial

/-- A bare word takes something from the text and stands for a scalar. -/
lemma bareWord?_some (h : bareWord? s = some (t, after)) : ∃ w, w ≠ [] ∧ s = w ++ after ∧ t.IsWord := by
  obtain ⟨entry, hfind, hentry⟩ := Option.map_eq_some_iff.mp h
  obtain ⟨rfl, rfl⟩ := Prod.mk.inj hentry
  obtain ⟨l, w, hword, -, -⟩ := bareWords_head entry (List.mem_of_find?_eq_some hfind)
  obtain ⟨behind, rfl⟩ := List.isPrefixOf_iff_prefix.mp (List.find?_some hfind :)
  exact ⟨entry.1, by simp [hword], by rw [List.drop_left], trivial⟩

/-- Where no mark and no text begins, there is a word. -/
lemma token?_some (hmark : mark? c = none) (hquote : c ≠ '"') (h : token? (c :: rest) = some (t, after)) :
    ∃ w, w ≠ [] ∧ c :: rest = w ++ after ∧ ((c :: rest).countP Char.isDigit ≤ Number.maxWholeDigits → t.IsWord) := by
  simp only [token?, hmark, if_neg hquote] at h
  obtain h | ⟨-, h⟩ := Option.or_eq_some_iff.mp h
  · obtain ⟨w, hw, hs, ht⟩ := bareWord?_some h
    exact ⟨w, hw, hs, fun _ => ht⟩
  · split at h
    · obtain ⟨w, -, hs, ht⟩ := number?_some h
      refine ⟨c :: w, List.cons_ne_nil c w, by rw [hs, List.cons_append], fun hcount => ht (le_trans ?_ hcount)⟩
      rw [List.countP_cons]
      omega
    · exact number?_some h

lemma lexes_invalid (hc : ¬isSpace c = true) (h : token? (c :: rest) = none) : Lexes (c :: rest) [.invalid] := by
  intro fuel hfuel
  cases fuel with
  | zero => exact absurd hfuel (Nat.not_lt_zero _)
  | succ fuel =>
    rw [tokensWithin, List.dropWhile_cons_of_neg hc]
    simp only [h]

/-- A text without marks and quotes is cut into words. -/
theorem lexes_words (s : List Char) (hs : ∀ c ∈ s, isPlain c = true)
    (hdigits : s.countP Char.isDigit ≤ Number.maxWholeDigits) : ∃ l, Lexes s l ∧ ∀ t ∈ l, t.IsWord := by
  induction hn : s.length using Nat.strong_induction_on generalizing s with
  | _ n ih =>
    subst hn
    -- what a token leaves is a shorter text of the same kind
    have hrest : ∀ w after, w ≠ [] → s = w ++ after → ∃ l, Lexes after l ∧ ∀ t ∈ l, t.IsWord := by
      rintro w after hw rfl
      have hlength := List.length_pos_iff.mpr hw
      rw [List.countP_append] at hdigits
      refine ih after.length ?_ after (fun c hc => hs c (List.mem_append_right w hc)) (by omega) rfl
      rw [List.length_append]
      omega
    cases s with
    | nil => exact ⟨[], lexes_nil, by simp⟩
    | cons c rest =>
      have hplain := hs c List.mem_cons_self
      rw [isPlain, Bool.and_eq_true, Option.isNone_iff_eq_none, bne_iff_ne] at hplain
      obtain ⟨hmark, hquote⟩ := hplain
      by_cases hc : isSpace c = true
      · obtain ⟨l, hl, hwords⟩ := hrest [c] rest (List.cons_ne_nil c []) rfl
        exact ⟨l, hl.space hc, hwords⟩
      · cases ht : token? (c :: rest) with
        | none => exact ⟨[.invalid], lexes_invalid hc ht, by simp [Token.IsWord]⟩
        | some found =>
          obtain ⟨t, after⟩ := found
          obtain ⟨w, hw, hcut, hword⟩ := token?_some hmark hquote ht
          obtain ⟨l, hl, hwords⟩ := hrest w after hw hcut
          rw [hcut] at ht ⊢
          refine ⟨t :: l, hl.token hw ht, List.forall_mem_cons.mpr ⟨hword hdigits, hwords⟩⟩

end Words

section Unclosed

variable {s after : List Char} {us : List ℕ}

/-- A text that is closed stays closed at the same place, whatever follows. -/
lemma units?_append (h : units? s = some (us, after)) (more : List Char) :
    units? (s ++ more) = some (us, after ++ more) := by
  fun_induction units? s generalizing us after with
  | case1 => cases h
  | case2 rest =>
    cases h
    rw [List.cons_append, units?]
  | case3 a b c d rest ih =>
    obtain ⟨unit, hunit, h⟩ := Option.bind_eq_some_iff.mp h
    obtain ⟨⟨us', after'⟩, hrest, h⟩ := Option.bind_eq_some_iff.mp h
    cases h
    simp only [List.cons_append, units?, hunit, ih hrest, Option.bind_eq_bind, Option.bind_some, Option.pure_def]
  | case4 c rest hu ih =>
    obtain ⟨d, hd, h⟩ := Option.bind_eq_some_iff.mp h
    obtain ⟨⟨us', after'⟩, hrest, h⟩ := Option.bind_eq_some_iff.mp h
    cases h
    -- the letter of a unit is no letter that stands for a character
    have hletter : c ≠ 'u' := by
      rintro rfl
      cases hd
    rw [List.cons_append, List.cons_append, units?.eq_4 c _ (fun _ _ _ _ _ h => absurd h hletter)]
    simp only [hd, ih hrest, Option.bind_eq_bind, Option.bind_some, Option.pure_def]
  | case5 => cases h
  | case6 c rest hq hu hb hc ih =>
    obtain ⟨⟨us', after'⟩, hrest, h⟩ := Option.bind_eq_some_iff.mp h
    cases h
    have hplain : c ≠ '\\' := fun h => hc (.inl h)
    rw [List.cons_append, units?.eq_5 c _ hq (fun _ _ _ _ _ h => absurd h hplain) (fun _ _ h => absurd h hplain),
      if_neg hc, ih hrest]
    rfl

/-- A text that is closed at the end is closed nowhere before. -/
lemma units?_of_append {more : List Char} (h : units? (s ++ more) = some (us, [])) (hne : more ≠ []) :
    units? s = none := by
  cases hs : units? s with
  | none => rfl
  | some found =>
    obtain ⟨us', after⟩ := found
    rw [units?_append hs, Option.some.injEq, Prod.mk.injEq, List.append_eq_nil_iff] at h
    exact absurd h.2.2 hne

/-- A text that is not closed is no word of JSON. -/
lemma lexes_unclosed (h : units? s = none) : Lexes ('"' :: s) [.invalid] := by
  have hmark : mark? '"' = none := rfl
  refine lexes_invalid (by decide) ?_
  simp only [token?, hmark, h, if_pos, Option.map_none]

end Unclosed

section Scalar

variable {c : Char} {p : List Char}

/-- The characters of written figures. -/
lemma mem_figures {f : Figures} (h : c ∈ f.text) : c.isDigit = true ∨ c ∈ ['.', 'e', '+', '-'] := by
  rw [Figures.text, List.mem_append, List.mem_append] at h
  obtain h | h | h := h
  · exact .inl (f.isDigit_whole c h)
  · rw [Figures.fractionText] at h
    split at h
    · cases h
    · obtain rfl | h := List.mem_cons.mp h
      · exact .inr (by decide)
      · exact .inl (f.isDigit_fraction c h)
  · cases hn : f.exponent with
    | none =>
      rw [hn] at h
      cases h
    | some n =>
      rw [hn, Figures.exponentText] at h
      obtain rfl | h := List.mem_cons.mp h
      · exact .inr (by decide)
      · obtain rfl | h := List.mem_cons.mp h
        · exact .inr (by split <;> decide)
        · exact .inl (Figures.isDigit_exponentDigits n c h)

/-- A finite double is written without marks and quotes. -/
lemma isPlain_text {x : Float} {a : ℚ} (ha : Number.toRat? x = some a) :
    ∀ c ∈ (Number.text x).toList, isPlain c = true := by
  intro c hc
  obtain ⟨f, htext, -⟩ := Number.exists_figures_text ha
  rw [htext, List.mem_append] at hc
  obtain hc | hc := hc
  · split at hc
    · rw [List.mem_singleton.mp hc]
      decide
    · cases hc
  · obtain hc | hc := mem_figures hc
    · exact isPlain_of_isDigit hc
    · fin_cases hc <;> decide

/-- A scalar that is no text is written without marks and quotes and with not too many digits. -/
lemma isPlain_writeScalar {s : Scalar} (hs : s.isWritable = true) (htext : ∀ text, s ≠ .text text) :
    (∀ c ∈ writeScalar s, isPlain c = true) ∧ (writeScalar s).countP Char.isDigit ≤ Number.maxWholeDigits := by
  cases s with
  | null => exact ⟨List.all_eq_true.mp (by decide), by decide⟩
  | bool b => cases b <;> exact ⟨List.all_eq_true.mp (by decide), by decide⟩
  | int m =>
    rw [Scalar.isWritable, decide_eq_true_eq] at hs
    rw [writeScalar, Number.ofInt, String.toList_ofList]
    constructor
    · refine List.forall_mem_append.mpr ⟨fun c hc => ?_, fun c hc => isPlain_of_isDigit (Text.isDigit_digitsOfNat hc)⟩
      split at hc
      · rw [List.mem_singleton.mp hc]
        decide
      · cases hc
    · have hsign : (if m < 0 then ['-'] else []).countP Char.isDigit = 0 := by
        split <;> rfl
      rw [List.countP_append, hsign, Nat.zero_add]
      exact List.countP_le_length.trans hs
  | float x =>
    rw [writeScalar, writeFloat]
    split
    · next h =>
      obtain ⟨a, ha⟩ := (Number.isFinite_iff x).mp h
      have hlength := Number.length_text_le ha
      have hmax : 2400 ≤ Number.maxWholeDigits := by decide
      exact ⟨isPlain_text ha, (List.countP_le_length.trans hlength).trans hmax⟩
    · next h =>
      rw [Number.isFinite_iff, ← Option.isSome_iff_exists, Bool.not_eq_true, Option.isSome_eq_false_iff,
        Option.isNone_iff_eq_none] at h
      rw [Number.display, h]
      simp only
      split
      · exact ⟨List.all_eq_true.mp (by decide), by decide⟩
      · split <;> exact ⟨List.all_eq_true.mp (by decide), by decide⟩
  | text text => exact absurd rfl (htext text)

/-- The beginning of a text in quotes is a word or is no word of JSON at all. -/
lemma exists_words_of_text {text : List CodePoint} (h : Unpaired text) (hp : p <+: writeText text) :
    ∃ words, Lexes p words ∧ ∀ t ∈ words, t.IsWord := by
  obtain ⟨us, hread, -⟩ := units?_writeText h []
  obtain ⟨more, hmore⟩ := hp
  cases p with
  | nil => exact ⟨[], lexes_nil, by simp⟩
  | cons c p =>
    rw [writeText, List.cons_append, List.cons.injEq] at hmore
    obtain ⟨rfl, hmore⟩ := hmore
    rw [← hmore] at hread
    by_cases hne : more = []
    · have hall := CutInto.scalar (s := .text text) h [] [] ends_nil lexes_nil
      rw [hne, List.append_nil] at hmore
      rw [writeScalar, writeText, ← hmore, List.append_nil, List.append_nil] at hall
      exact ⟨_, hall, by simp [Scalar.token, Token.IsWord]⟩
    · exact ⟨_, lexes_unclosed (units?_of_append hread hne), by simp [Token.IsWord]⟩

/-- The beginning of a written scalar is cut into words. -/
theorem exists_words {s : Scalar} (hs : s.IsReadable) (hp : p <+: writeScalar s) :
    ∃ words, Lexes p words ∧ ∀ t ∈ words, t.IsWord := by
  by_cases htext : ∃ text, s = .text text
  · obtain ⟨text, rfl⟩ := htext
    exact exists_words_of_text hs.1 hp
  · rw [not_exists] at htext
    obtain ⟨hplain, hdigits⟩ := isPlain_writeScalar hs.2 htext
    exact lexes_words p (fun c hc => hplain c (hp.subset hc)) ((hp.sublist.countP_le).trans hdigits)

end Scalar

end Json

end Reckoner
