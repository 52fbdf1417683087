import Mathlib
import Reckoner.Expression.Chunk
import Reckoner.Expression.Token

/-!
# Cutting a text

A text is cut twice on its way to a value: into chunks before it is spelled out, into lexemes after.
A list of chunks is `Canonical` when each chunk is one that cutting can yield and ends where it does
because of the character that follows. Cutting yields canonical lists, and the canonical list of a text
is the one that cutting yields (`split_join`), so a list that is rearranged chunk by chunk is cut the
same way as long as it stays canonical.

The lexemes of a canonical list are its chunks, except that numerals that touch become one lexeme
(`split_join_lexemes`). They touch only where a run of digits holds a second point.
-/

namespace Reckoner

namespace Text

/-- The character after a run of a class is outside the class. -/
lemma head?_dropWhile {p : Char → Bool} {s : List Char} :
    ∀ c ∈ (s.dropWhile p).head?, p c = false := by
  intro c hc
  have h := List.head?_dropWhile_not p s
  rw [Option.mem_def.mp hc] at h
  simpa using h

end Text

namespace Chunk

/-- A chunk that cutting can yield. -/
inductive Proper : Chunk → Prop where
  | name {c l} :
    c.isAlpha →
    (∀ d ∈ l, d.isAlphanum) →
    Proper (.name (c :: l))
  | whole {c l} :
    c.isDigit →
    (∀ d ∈ l, d.isDigit) →
    Proper (.number (c :: l))
  | point {l r} :
    (∀ d ∈ l, d.isDigit) →
    (∀ d ∈ r, d.isDigit) →
    Proper (.number (l ++ '.' :: r))
  | mark {c} :
    c.isAlpha = false →
    c.isDigit = false →
    c ≠ '.' →
    Proper (.mark c)

/-- Whether a chunk is complete when the given character follows it. -/
def EndsBefore (c : Char) : Chunk → Prop
  | name _ => c.isAlphanum = false
  | number digits => c.isDigit = false ∧ (c = '.' → '.' ∈ digits)
  | mark _ => True

/-- A list of chunks that is the cut of its own text. -/
def Canonical : List Chunk → Prop
  | [] => True
  | k :: l => k.Proper ∧ (∀ c ∈ (join l).head?, k.EndsBefore c) ∧ Canonical l

lemma Canonical.proper {l : List Chunk} (h : Canonical l) : ∀ k ∈ l, k.Proper := by
  induction l with
  | nil => simp
  | cons k l ih => exact List.forall_mem_cons.mpr ⟨h.1, ih h.2.2⟩

/-- Every chunk ends before a character that is a chunk of its own. -/
lemma endsBefore_of_mark {c : Char} (h : (mark c).Proper) (k : Chunk) : k.EndsBefore c := by
  cases h with
  | mark ha hd hp =>
    cases k with
    | name s => simp [EndsBefore, Char.isAlphanum, ha, hd]
    | number d => exact ⟨hd, fun e => absurd e hp⟩
    | mark d => trivial

lemma Canonical.mark_cons {c : Char} {l : List Chunk} (hc : (mark c).Proper)
    (h : Canonical l) : Canonical (mark c :: l) :=
  ⟨hc, fun _ _ => trivial, h⟩

lemma isDigit_of_isAlpha {c : Char} (h : c.isAlpha) : c.isDigit = false := by
  simp only [Char.isAlpha, Char.isUpper, Char.isLower, Char.isDigit, Bool.or_eq_true,
    Bool.and_eq_true, decide_eq_true_eq, Bool.and_eq_false_iff, decide_eq_false_iff_not,
    ge_iff_le, UInt32.le_iff_toNat_le] at h ⊢
  simp at h ⊢
  omega

lemma isAlpha_of_isDigit {c : Char} (h : c.isDigit) : c.isAlpha = false := by
  cases ha : c.isAlpha with
  | false => rfl
  | true =>
    rw [isDigit_of_isAlpha ha] at h
    cases h

lemma fraction_of_ne {s : List Char} (h : s.head? ≠ some '.') :
    fraction s = [] ∧ afterFraction s = s := by
  cases s with
  | nil => exact ⟨rfl, rfl⟩
  | cons c s =>
    have hc : c ≠ '.' := fun e => h (by rw [e]; rfl)
    unfold fraction afterFraction
    constructor
    · split
      · next heq => exact absurd (List.cons.inj heq).1 hc
      · rfl
    · split
      · next heq => exact absurd (List.cons.inj heq).1 hc
      · rfl

/-- A complete chunk is cut off the text that follows it. -/
lemma split_append {k : Chunk} {s : List Char} (hk : k.Proper)
    (hs : ∀ c ∈ s.head?, k.EndsBefore c) : split (k.text ++ s) = k :: split s := by
  cases hk with
  | @name c l hc hl =>
    simp only [text, List.cons_append]
    rw [split, if_pos hc, Text.takeWhile_append_eq hl hs, Text.dropWhile_append_eq hl hs]
  | @whole c l hc hl =>
    have hd : ∀ d ∈ s.head?, d.isDigit = false := fun d hd => (hs d hd).1
    -- No point may follow, as it would be taken into a numeral that has none.
    have hp : s.head? ≠ some '.' := by
      intro e
      have hm := (hs '.' e).2 rfl
      have hd : ∀ d ∈ c :: l, d.isDigit := List.forall_mem_cons.mpr ⟨hc, hl⟩
      exact absurd (hd '.' hm) (by decide)
    obtain ⟨hf, ha⟩ := fraction_of_ne hp
    simp only [text, List.cons_append]
    rw [split, if_neg (by simp [isAlpha_of_isDigit hc]), if_pos hc]
    simp only [Text.takeWhile_append_eq hl hd, Text.dropWhile_append_eq hl hd, hf, ha,
      List.append_nil]
  | @point l r hl hr =>
    have hd : ∀ d ∈ s.head?, d.isDigit = false := fun d hd => (hs d hd).1
    cases l with
    | nil =>
      simp only [text, List.nil_append, List.cons_append]
      rw [split, if_neg (by decide), if_neg (by decide), if_pos rfl,
        Text.takeWhile_append_eq hr hd, Text.dropWhile_append_eq hr hd]
    | cons c l =>
      obtain ⟨hc, hl⟩ := List.forall_mem_cons.mp hl
      have hp : ∀ d ∈ ('.' :: (r ++ s)).head?, d.isDigit = false := by
        intro d hd
        cases hd
        rfl
      simp only [text, List.cons_append, List.append_assoc]
      rw [split, if_neg (by simp [isAlpha_of_isDigit hc]), if_pos hc]
      simp only [Text.takeWhile_append_eq hl hp, Text.dropWhile_append_eq hl hp, fraction,
        afterFraction, Text.takeWhile_append_eq hr hd, Text.dropWhile_append_eq hr hd]
  | @mark c ha hd hp =>
    simp only [text, List.cons_append, List.nil_append]
    rw [split, if_neg (by simp [ha]), if_neg (by simp [hd]), if_neg hp]

/-- Cutting the text of a canonical list gives the list back. -/
theorem split_join {l : List Chunk} (h : Canonical l) : split (join l) = l := by
  induction l with
  | nil => simp [split]
  | cons k l ih =>
    obtain ⟨hk, hs, hl⟩ := h
    rw [join_cons, split_append hk hs, ih hl]

/-- The point and digits of a fraction, and a text without one. -/
lemma fraction_cases (s : List Char) :
    (fraction s = [] ∧ afterFraction s = s ∧ s.head? ≠ some '.') ∨
      ∃ r, s = '.' :: r ∧ fraction s = '.' :: r.takeWhile Char.isDigit ∧
        afterFraction s = r.dropWhile Char.isDigit := by
  by_cases h : s.head? = some '.'
  · obtain ⟨r, rfl⟩ := List.head?_eq_some_iff.mp h
    exact .inr ⟨r, rfl, rfl, rfl⟩
  · obtain ⟨hf, ha⟩ := fraction_of_ne h
    exact .inl ⟨hf, ha, h⟩

/-- Cutting yields canonical lists. -/
theorem canonical_split (s : List Char) : Canonical (split s) := by
  fun_induction split s with
  | case1 => trivial
  | case2 c rest hc ih =>
    refine ⟨.name hc fun d hd => List.mem_takeWhile_imp hd, ?_, ih⟩
    rw [join_split]
    exact Text.head?_dropWhile
  | case3 c rest hc hd after ih =>
    have hl : ∀ d ∈ rest.takeWhile Char.isDigit, d.isDigit :=
      fun d hd => List.mem_takeWhile_imp hd
    refine ⟨?_, ?_, ih⟩
    · obtain ⟨hf, -, -⟩ | ⟨r, -, hf, -⟩ := fraction_cases after
      · rw [hf, List.append_nil]
        exact .whole hd hl
      · rw [hf]
        exact .point (l := c :: rest.takeWhile Char.isDigit)
          (List.forall_mem_cons.mpr ⟨hd, hl⟩) fun d hd => List.mem_takeWhile_imp hd
    · rw [join_split]
      intro e he
      obtain ⟨hf, ha, hp⟩ | ⟨r, -, hf, ha⟩ := fraction_cases after
      · rw [ha] at he
        refine ⟨Text.head?_dropWhile e he, ?_⟩
        rintro rfl
        exact absurd he hp
      · rw [ha] at he
        refine ⟨Text.head?_dropWhile e he, fun _ => ?_⟩
        rw [hf]
        simp
  | case4 rest _ _ ih =>
    refine ⟨.point (l := []) (by simp) fun d hd => List.mem_takeWhile_imp hd, ?_, ih⟩
    rw [join_split]
    intro e he
    exact ⟨Text.head?_dropWhile e he, fun _ => by simp⟩
  | case5 c rest ha hd hp ih =>
    exact ⟨.mark (by simpa using ha) (by simpa using hd) hp, fun _ _ => trivial, ih⟩

/-- The lexeme that a chunk is, as long as it touches no numeral. -/
def toLexeme : Chunk → Lexeme
  | name letters => .name letters
  | number digits => .numeral digits
  | mark c => .mark c

end Chunk

namespace Lexeme

/-- Lexemes after a run of digits and points, which takes in a numeral that it touches. -/
def glue (digits : List Char) : List Lexeme → List Lexeme
  | numeral s :: l => numeral (digits ++ s) :: l
  | l => numeral digits :: l

lemma isPart_of_isAlpha {c : Char} (h : c.isAlpha) : Numeral.isPart c = false := by
  have hp : c ≠ '.' := by
    rintro rfl
    exact absurd h (by decide)
  simp [Numeral.isPart, Chunk.isDigit_of_isAlpha h, hp]

lemma split_name_append {c : Char} {l s : List Char} (hc : c.isAlpha)
    (hl : ∀ d ∈ l, d.isAlphanum) (hs : ∀ d ∈ s.head?, d.isAlphanum = false) :
    split (c :: l ++ s) = name (c :: l) :: split s := by
  rw [List.cons_append, split, if_neg (by simp [isPart_of_isAlpha hc]), if_pos hc,
    Text.takeWhile_append_eq hl hs, Text.dropWhile_append_eq hl hs]

lemma split_mark_cons {c : Char} (ha : c.isAlpha = false) (hp : Numeral.isPart c = false)
    (s : List Char) : split (c :: s) = mark c :: split s := by
  rw [split, if_neg (by simp [hp]), if_neg (by simp [ha])]

/-- Digits and points are glued to the numeral at the start of the text that follows. -/
lemma split_numeral_append {c : Char} {l s : List Char} (hc : Numeral.isPart c)
    (hl : ∀ d ∈ l, Numeral.isPart d) : split (c :: l ++ s) = glue (c :: l) (split s) := by
  rw [List.cons_append, split, if_pos hc]
  cases s with
  | nil =>
    rw [List.append_nil, List.takeWhile_eq_self_iff.mpr hl, List.dropWhile_eq_nil_iff.mpr hl]
    simp [split, glue]
  | cons e s =>
    rw [List.takeWhile_append_of_pos hl, List.dropWhile_append_of_pos hl]
    by_cases he : Numeral.isPart e
    · rw [List.takeWhile_cons_of_pos he, List.dropWhile_cons_of_pos he, split.eq_def (e :: s)]
      simp [he, glue]
    · rw [List.takeWhile_cons_of_neg he, List.dropWhile_cons_of_neg he, List.append_nil]
      conv_rhs => rw [split.eq_def (e :: s)]
      rw [split.eq_def (e :: s)]
      simp only [if_neg he]
      split <;> rfl

end Lexeme

namespace Chunk

/-- The lexemes of a list of chunks: numerals that touch become one. -/
def lexemes : List Chunk → List Lexeme
  | [] => []
  | number digits :: l => Lexeme.glue digits (lexemes l)
  | k :: l => k.toLexeme :: lexemes l

@[simp] lemma lexemes_name_cons (s : List Char) (l : List Chunk) :
    lexemes (name s :: l) = .name s :: lexemes l := rfl

@[simp] lemma lexemes_mark_cons (c : Char) (l : List Chunk) :
    lexemes (mark c :: l) = .mark c :: lexemes l := rfl

lemma Proper.isPart {d : List Char} (h : (number d).Proper) : ∀ c ∈ d, Numeral.isPart c := by
  cases h with
  | whole hc hl =>
    intro e he
    rcases List.mem_cons.mp he with rfl | he
    · simp [Numeral.isPart, hc]
    · simp [Numeral.isPart, hl e he]
  | point hl hr =>
    intro e he
    rcases List.mem_append.mp he with he | he
    · simp [Numeral.isPart, hl e he]
    · rcases List.mem_cons.mp he with rfl | he
      · rfl
      · simp [Numeral.isPart, hr e he]

lemma Proper.text_ne_nil {k : Chunk} (h : k.Proper) : k.text ≠ [] := by
  cases h <;> simp [text]

lemma Proper.head?_join {k : Chunk} (h : k.Proper) (l : List Chunk) :
    (join (k :: l)).head? = k.text.head? := by
  obtain ⟨c, s, hs⟩ := List.exists_cons_of_ne_nil h.text_ne_nil
  rw [join_cons, hs]
  rfl

/-- The lexemes of the text of a canonical list. -/
theorem split_join_lexemes {l : List Chunk} (h : Canonical l) :
    Lexeme.split (join l) = lexemes l := by
  induction l with
  | nil => simp [Lexeme.split, lexemes]
  | cons k l ih =>
    obtain ⟨hk, hs, hl⟩ := h
    rw [join_cons]
    cases k with
    | name s =>
      cases hk with
      | name hc hd =>
        rw [text, Lexeme.split_name_append hc hd hs, ih hl]
        rfl
    | number d =>
      obtain ⟨c, d, rfl⟩ := List.exists_cons_of_ne_nil hk.text_ne_nil
      have hp := hk.isPart
      rw [text, Lexeme.split_numeral_append (hp c (by simp))
        fun e he => hp e (List.mem_cons_of_mem c he), ih hl]
      rfl
    | mark c =>
      cases hk with
      | mark ha hd hp =>
        have hc : Numeral.isPart c = false := by simp [Numeral.isPart, hd, hp]
        rw [text, List.singleton_append, Lexeme.split_mark_cons ha hc, ih hl]
        rfl

/-- No two numerals touch. -/
def Apart (l : List Chunk) : Prop :=
  l.IsChain fun a b => ¬(a.isNumber ∧ b.isNumber)

/-- A numeral that touches nothing is not glued. -/
lemma lexemes_number_cons {d : List Char} {l : List Chunk}
    (h : ∀ k ∈ l.head?, k.isNumber = false) :
    lexemes (number d :: l) = .numeral d :: lexemes l := by
  cases l with
  | nil => rfl
  | cons k l =>
    cases k with
    | number e => exact absurd (h _ rfl) (by simp [isNumber])
    | name s => rfl
    | mark c => rfl

/-- Where no numerals touch, the lexemes are the chunks. -/
lemma Apart.lexemes {l : List Chunk} (h : Apart l) : lexemes l = l.map toLexeme := by
  induction l with
  | nil => rfl
  | cons k l ih =>
    have hl : Apart l := h.tail
    cases k with
    | number d =>
      rw [lexemes_number_cons, ih hl]
      · rfl
      · intro k hk
        have hr := (List.isChain_cons.mp h).1 k hk
        simpa [isNumber] using hr
    | name s => rw [lexemes_name_cons, ih hl]; rfl
    | mark c => rw [lexemes_mark_cons, ih hl]; rfl

lemma Proper.count_point_le {d : List Char} (h : (number d).Proper) : d.count '.' ≤ 1 := by
  have hz : ∀ {r : List Char}, (∀ c ∈ r, c.isDigit) → r.count '.' = 0 := fun hr =>
    List.count_eq_zero.mpr fun hm => absurd (hr '.' hm) (by decide)
  cases h with
  | whole hc hl => rw [hz (List.forall_mem_cons.mpr ⟨hc, hl⟩)]; exact Nat.zero_le 1
  | point hl hr => rw [List.count_append, List.count_cons_self, hz hl, hz hr]

/-- Numerals that touch hold a point each. -/
lemma mem_point_of_touch {d e : List Char} {l : List Chunk}
    (h : Canonical (number d :: number e :: l)) : '.' ∈ d ∧ '.' ∈ e := by
  obtain ⟨-, hs, he, -⟩ := h
  cases he with
  | whole hc hl => exact absurd (hs _ rfl).1 (by simp [hc])
  | @point l r hl hr =>
    cases l with
    | nil => exact ⟨(hs '.' rfl).2 rfl, by simp⟩
    | cons c l => exact absurd (hs c rfl).1 (by simp [hl c (by simp)])

/-- The lexeme of a numeral at the start of a list begins with it. -/
lemma lexemes_number (d : List Char) (l : List Chunk) :
    ∃ e r, lexemes (number d :: l) = .numeral (d ++ e) :: r := by
  rw [lexemes]
  cases lexemes l with
  | nil => exact ⟨[], [], by simp [Lexeme.glue]⟩
  | cons x r =>
    cases x with
    | numeral e => exact ⟨e, r, rfl⟩
    | name s => exact ⟨[], .name s :: r, by simp [Lexeme.glue]⟩
    | mark c => exact ⟨[], .mark c :: r, by simp [Lexeme.glue]⟩

/-- A list whose numerals hold one point at most has none that touch. -/
lemma apart_of_count_le {l : List Chunk} (h : Canonical l)
    (hl : ∀ s, .numeral s ∈ lexemes l → s.count '.' ≤ 1) : Apart l := by
  induction l with
  | nil => exact .nil
  | cons k l ih =>
    have step (hk : ∀ b ∈ l.head?, ¬(k.isNumber ∧ b.isNumber))
        (hm : ∀ s, .numeral s ∈ lexemes l → .numeral s ∈ lexemes (k :: l)) : Apart (k :: l) :=
      List.isChain_cons.mpr ⟨hk, ih h.2.2 fun s hs => hl s (hm s hs)⟩
    cases k with
    | name s => exact step (by simp [isNumber]) (by simp)
    | mark c => exact step (by simp [isNumber]) (by simp)
    | number d =>
      by_cases hn : ∀ b ∈ l.head?, b.isNumber = false
      · refine step (fun b hb => by simp [hn b hb]) fun s hs => ?_
        rw [lexemes_number_cons hn]
        exact List.mem_cons_of_mem _ hs
      · -- Numerals that touch become one lexeme, which has the points of both.
        obtain ⟨e, l, rfl⟩ : ∃ e l', l = number e :: l' := by
          match l, hn with
          | number e :: l, _ => exact ⟨e, l, rfl⟩
          | [], hn => simp at hn
          | name s :: l, hn => simp [isNumber] at hn
          | mark c :: l, hn => simp [isNumber] at hn
        obtain ⟨hd, he⟩ := mem_point_of_touch h
        obtain ⟨f, r, hf⟩ := lexemes_number e l
        have hc := hl (d ++ (e ++ f)) (by rw [lexemes, hf]; simp [Lexeme.glue])
        have hd := List.count_pos_iff.mpr hd
        have he := List.count_pos_iff.mpr he
        simp only [List.count_append] at hc
        omega

/-- Numerals touch exactly where a run of digits has a second point. -/
theorem apart_iff {l : List Chunk} (h : Canonical l) :
    Apart l ↔ ∀ s, .numeral s ∈ Lexeme.split (join l) → s.count '.' ≤ 1 := by
  rw [split_join_lexemes h]
  refine ⟨fun hl s hs => ?_, apart_of_count_le h⟩
  rw [hl.lexemes] at hs
  obtain ⟨k, hk, e⟩ := List.mem_map.mp hs
  have hp : k.Proper := h.proper k hk
  cases k with
  | number d => cases e; exact hp.count_point_le
  | name s => cases e
  | mark c => cases e

end Chunk

namespace Lexeme

/-- Whether a lexeme is a name. -/
def isName : Lexeme → Bool
  | name _ => true
  | _ => false

/-- Whether a lexeme is a numeral. -/
def isNumeral : Lexeme → Bool
  | numeral _ => true
  | _ => false

/-- Lexemes that are not one longer lexeme. -/
def Breaks (a b : Lexeme) : Prop :=
  ¬(a.isNumeral ∧ b.isNumeral) ∧ ¬(a.isName ∧ b.isName)

/-- The first lexeme of a text shows its first character. -/
lemma head?_split {s : List Char} {a : Lexeme} (h : a ∈ (split s).head?) :
    ∃ c ∈ s.head?, (a.isNumeral → Numeral.isPart c) ∧ (a.isName → c.isAlpha) := by
  cases s with
  | nil => simp [split] at h
  | cons c s =>
    refine ⟨c, rfl, ?_⟩
    rw [split] at h
    split at h
    · next hc =>
      cases h
      exact ⟨fun _ => hc, fun h => absurd h Bool.false_ne_true⟩
    · split at h
      · next hc =>
        cases h
        exact ⟨fun h => absurd h Bool.false_ne_true, fun _ => hc⟩
      · cases h
        exact ⟨fun h => absurd h Bool.false_ne_true, fun h => absurd h Bool.false_ne_true⟩

/-- Lexemes are as long as they can be. -/
theorem isChain_split (s : List Char) : (split s).IsChain Breaks := by
  fun_induction split s with
  | case1 => exact .nil
  | case2 c s _ ih =>
    refine List.isChain_cons.mpr ⟨fun b hb => ⟨fun h => ?_, fun h => Bool.false_ne_true h.1⟩, ih⟩
    obtain ⟨d, hd, hp, -⟩ := head?_split hb
    have := hp h.2
    rw [Text.head?_dropWhile d hd] at this
    cases this
  | case3 c s _ _ ih =>
    refine List.isChain_cons.mpr ⟨fun b hb => ⟨fun h => Bool.false_ne_true h.1, fun h => ?_⟩, ih⟩
    obtain ⟨d, hd, -, ha⟩ := head?_split hb
    have := Text.head?_dropWhile d hd
    rw [Char.isAlphanum, ha h.2] at this
    cases this
  | case4 c s _ _ ih =>
    have hb (b : Lexeme) : Breaks (mark c) b :=
      ⟨fun h => Bool.false_ne_true h.1, fun h => Bool.false_ne_true h.1⟩
    exact List.isChain_cons.mpr ⟨fun b _ => hb b, ih⟩

end Lexeme

end Reckoner
