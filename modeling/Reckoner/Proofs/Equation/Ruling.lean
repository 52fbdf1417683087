import Mathlib
import Reckoner.Proofs.Equation.Sums

/-!
# What becomes of a linear equation

`Ruling` says for every text what it is worth: the value of an equation, or the kind and the code of what is
wrong with it, the first of these: not one equals sign, a blank side, a right side or a left side outside the
language, a number that is too big, a difference or a quotient that is too big. `solve_iff_ruling` shows that
solving follows it on every text. So a text is accepted exactly if both its sides are in the language and all
their numbers are finite.
-/

namespace Reckoner

namespace Text

/-- A text with nothing but blanks. -/
def Blank (s : List Char) : Prop :=
  ∀ c ∈ s, isBlank c

instance (s : List Char) : Decidable (Blank s) :=
  inferInstanceAs (Decidable (∀ c ∈ s, isBlank c))

lemma dropBlanks_dropWhile (s : List Char) : dropBlanks (s.dropWhile isBlank) = dropBlanks s := by
  have hs := List.takeWhile_append_dropWhile (p := isBlank) (l := s)
  have hblank : dropBlanks (s.takeWhile isBlank) = [] := by
    rw [dropBlanks, List.filter_eq_nil_iff]
    intro c hc
    simp [List.mem_takeWhile_imp hc]
  conv_rhs => rw [← hs, dropBlanks_append, hblank, List.nil_append]

lemma dropBlanks_reverse (s : List Char) : dropBlanks s.reverse = (dropBlanks s).reverse :=
  List.filter_reverse ..

/-- Trimming takes away blanks only. -/
lemma dropBlanks_trim (s : List Char) : dropBlanks (trim s) = dropBlanks s := by
  rw [trim, trimBy, dropBlanks_reverse, dropBlanks_dropWhile, dropBlanks_reverse, List.reverse_reverse,
    dropBlanks_dropWhile]

lemma trim_eq_nil_iff {s : List Char} : trim s = [] ↔ Blank s := by
  have hall (t : List Char) : t.dropWhile isBlank = [] ↔ Blank t := List.dropWhile_eq_nil_iff
  rw [trim, trimBy, List.reverse_eq_nil_iff, hall]
  constructor
  · intro h
    rw [← hall]
    by_contra hne
    -- What is left at the front is not blank.
    have hhead := List.head_dropWhile_not isBlank hne
    have := h _ (List.mem_reverse.mpr (List.head_mem hne))
    rw [this] at hhead
    cases hhead
  · intro h c hc
    have hnil : s.dropWhile isBlank = [] := (hall s).mpr h
    rw [hnil] at hc
    cases hc

end Text

namespace Linear

open Text (Blank dropBlanks)

/-- The two sides of a text with one equals sign. -/
structure Sides (s l r : List Char) : Prop where
  text : s = l ++ '=' :: r
  left : '=' ∉ l
  right : '=' ∉ r

/-- The two sides are in the language once their blanks are dropped. -/
inductive Written (s : List Char) (left : LeftSide) (right : RightSide) : Prop
  | mk {l r} :
    Sides s l r → left.text = dropBlanks l → right.text = dropBlanks r →
    Written s left right

/-- All numbers of an equation are finite: those written and the two sums. -/
structure Measured (left : LeftSide) (right : RightSide) : Prop where
  terms : ∀ t ∈ left.terms, t.body.size.isFinite
  right : right.literal.value.isFinite
  coefficient : left.coefficient.isFinite
  constant : left.constant.isFinite

/-- What is left for the variable: the right side less the constant. -/
def difference (left : LeftSide) (right : RightSide) : Float :=
  right.value - left.constant

/-- What a text is worth as an equation. -/
inductive Ruling (s : List Char) : Except (Kind × String) Float → Prop
  | notAnEquation :
    s.count '=' ≠ 1 →
    Ruling s (.error (.solving, "3012"))
  | emptySide {l r} :
    Sides s l r → Blank l ∨ Blank r →
    Ruling s (.error (.solving, "3022"))
  | wrongRight {l r} :
    Sides s l r → ¬Blank l → ¬Blank r →
    (∀ right : RightSide, right.text ≠ dropBlanks r) →
    Ruling s (.error (.solving, "3020"))
  | wrongLeft {l r} {right : RightSide} :
    Sides s l r → ¬Blank l →
    right.text = dropBlanks r →
    (∀ left : LeftSide, left.text ≠ dropBlanks l) →
    Ruling s (.error (.solving, "3021"))
  | tooBig {left right} :
    Written s left right → ¬Measured left right →
    Ruling s (.error (.solving, "3026"))
  | differenceTooBig {left right} :
    Written s left right → Measured left right →
    ¬(difference left right).isFinite →
    Ruling s (.error (.calculation, "3007"))
  | identity {left right} :
    Written s left right → Measured left right →
    (difference left right).isFinite →
    left.coefficient == 0 → left.constant == right.value →
    Ruling s (.ok (1 / 0))
  | contradiction {left right} :
    Written s left right → Measured left right →
    (difference left right).isFinite →
    left.coefficient == 0 → ¬left.constant == right.value →
    Ruling s (.ok (0 / 0))
  | quotientTooBig {left right} :
    Written s left right → Measured left right →
    (difference left right).isFinite →
    ¬left.coefficient == 0 → ¬(difference left right / left.coefficient).isFinite →
    Ruling s (.error (.calculation, "3007"))
  | solved {left right} :
    Written s left right → Measured left right →
    (difference left right).isFinite →
    ¬left.coefficient == 0 → (difference left right / left.coefficient).isFinite →
    Ruling s (.ok (difference left right / left.coefficient))

/-- What an answer is worth: its value, or the kind and the code of its failure. -/
def worth (answer : Except Failure Solution) : Except (Kind × String) Float :=
  match answer with
  | .ok solution => .ok solution.value
  | .error failure => .error (failure.cause.kind, failure.cause.code)

/-- The value of an identity is infinite, and that of a contradiction is no number. -/
lemma unpack_identity : (1 / 0 : Float).toModel.unpack = .infinity .positive :=
  rfl

lemma unpack_contradiction : (0 / 0 : Float).toModel.unpack = .notANumber :=
  rfl

section Reading

variable {s l r : List Char} {left : LeftSide} {right : RightSide}

lemma exists_sides (h : s.count '=' = 1) : ∃ l r, Sides s l r := by
  have hmem : '=' ∈ s := List.count_pos_iff.mp (by omega)
  obtain ⟨l, r, rfl, hl⟩ := List.eq_append_cons_of_mem hmem
  refine ⟨l, r, rfl, hl, ?_⟩
  rw [List.count_append, List.count_cons_self] at h
  exact List.count_eq_zero.mp (by omega)

/-- An equation is cut at its equals sign. -/
lemma ofEquation_of_sides (h : Sides s l r) :
    Form.ofEquation s =
      if Blank l ∨ Blank r then .error (.emptySide (String.ofList s))
      else if isNumeral (unsigned (dropBlanks r)) then Form.read (Text.trim l) (dropBlanks r)
      else .error (.rightSideNotNumber (String.ofList (Text.trim r))) := by
  obtain ⟨rfl, hl, hr⟩ := h
  have hcount : (l ++ '=' :: r).count '=' = 1 := by
    rw [List.count_append, List.count_cons_self, List.count_eq_zero.mpr hl,
      List.count_eq_zero.mpr hr]
  have hbefore : ∀ c ∈ l, decide (c ≠ '=') = true := by
    intro c hc
    simpa using ne_of_mem_of_not_mem hc hl
  have hat : ∀ c ∈ ('=' :: r).head?, decide (c ≠ '=') = false := by simp
  rw [Form.ofEquation, if_neg (not_not.mpr hcount)]
  simp only [Text.takeWhile_append_eq hbefore hat, Text.dropWhile_append_eq hbefore hat,
    List.drop_one, List.tail_cons, List.isEmpty_iff, Text.trim_eq_nil_iff, Text.dropBlanks_trim]

lemma not_blank_of_dropBlanks (h : dropBlanks s ≠ []) : ¬Blank s := by
  intro hb
  apply h
  rw [dropBlanks, List.filter_eq_nil_iff]
  intro c hc
  simp [hb c hc]

lemma LeftSide.text_ne_nil (left : LeftSide) : left.text ≠ [] := by
  obtain ⟨c, s, h, -⟩ := left.exists_cons
  rw [h]
  exact List.cons_ne_nil _ _

lemma RightSide.text_ne_nil (right : RightSide) : right.text ≠ [] := by
  simp [RightSide.text, right.literal.spells.ne_nil]

/-- An equation in the language is read side by side. -/
lemma ofEquation_of_written (h : Written s left right) :
    ∃ l, dropBlanks l = left.text ∧ Form.ofEquation s = Form.read l right.text := by
  obtain ⟨h, hl, hr⟩ := h
  rename_i l r
  have hbl : ¬Blank l := not_blank_of_dropBlanks (hl ▸ left.text_ne_nil)
  have hbr : ¬Blank r := not_blank_of_dropBlanks (hr ▸ right.text_ne_nil)
  refine ⟨Text.trim l, by rw [Text.dropBlanks_trim, hl], ?_⟩
  rw [ofEquation_of_sides h, if_neg (not_or.mpr ⟨hbl, hbr⟩), ← hr,
    if_pos (rightSide_iff.mpr ⟨right, rfl⟩)]

/-- The two sums of a left side, as far as both are finite. -/
lemma read_left (h : dropBlanks l = left.text) (hterms : ∀ t ∈ left.terms, t.body.size.isFinite) :
    Side.read l = if left.coefficient.isFinite ∧ left.constant.isFinite then
        .ok ⟨left.coefficient, left.constant⟩
      else .error (.sideTooBig (String.ofList l)) := by
  rw [Side.read, h, left.terms?_text]
  simp only [ofTerms_eq_ok hterms]
  rfl

/-- A term of a left side that is too big. -/
lemma read_left_error (h : dropBlanks l = left.text)
    (hterms : ∃ t ∈ left.terms, t.body.size.isFinite = false) :
    ∃ shown, Side.read l = .error (.numberTooBig shown) := by
  obtain ⟨shown, herror⟩ := ofTerms_eq_error hterms
  refine ⟨shown, ?_⟩
  rw [Side.read, h, left.terms?_text]
  simp only [herror]
  rfl

/-- The sign of a right side is where it begins. -/
lemma RightSide.head?_text (right : RightSide) :
    right.text.head? = some '-' ↔ right.sign = some '-' := by
  obtain ⟨sign, l, hs⟩ := right
  cases sign with
  | some c => rfl
  | none =>
    obtain ⟨c, rest, hc, hpart⟩ := l.exists_cons
    change l.text.head? = some '-' ↔ none = some '-'
    rw [hc, List.head?_cons, Option.some_inj]
    constructor
    · rintro rfl
      exact absurd hpart (by decide)
    · intro h
      cases h

/-- The number of a right side, or that it is too big. -/
lemma rightValue_text (right : RightSide) :
    rightValue right.text = if right.literal.value.isFinite then .ok right.value
      else .error (.numberTooBig (String.ofList right.text)) := by
  rw [rightValue, right.unsigned_text, finiteNumber_text]
  split
  · rw [Outcome.ok_bind, RightSide.value]
    simp only [right.head?_text]
    rfl
  · rfl

lemma subtract_apply (x y : Float) :
    Operator.subtract.apply x y = if (x - y).isFinite then .ok (x - y)
      else .error (.resultNotFinite "-") := by
  rfl

lemma divide_apply {x y : Float} (h : ¬y == 0) :
    Operator.divide.apply x y = if (x / y).isFinite then .ok (x / y)
      else .error (.resultNotFinite "/") := by
  rw [Operator.apply, Operator.compute, if_neg h]
  rfl

/-- Finite numbers are read, and the difference is taken. -/
lemma read_of_measured (hl : dropBlanks l = left.text) (h : Measured left right) :
    Form.read l right.text =
      if (difference left right).isFinite then
        .ok ⟨⟨left.coefficient, left.constant⟩, right.value, difference left right⟩
      else .error (.resultNotFinite "-") := by
  rw [Form.read, read_left hl h.terms, if_pos ⟨h.coefficient, h.constant⟩, Outcome.ok_bind,
    rightValue_text, if_pos h.right, Outcome.ok_bind, subtract_apply, difference]
  split <;> rfl

/-- A number that is too big is an error of its own. -/
lemma read_of_not_measured (hl : dropBlanks l = left.text) (h : ¬Measured left right) :
    ∃ c, Form.read l right.text = .error c ∧ c.kind = .solving ∧ c.code = "3026" := by
  rw [Form.read]
  by_cases hterms : ∀ t ∈ left.terms, t.body.size.isFinite = true
  · rw [read_left hl hterms]
    by_cases hside : left.coefficient.isFinite = true ∧ left.constant.isFinite = true
    · rw [if_pos hside, Outcome.ok_bind, rightValue_text, if_neg]
      · exact ⟨_, rfl, rfl, rfl⟩
      · intro hright
        exact h ⟨hterms, hright, hside.1, hside.2⟩
    · rw [if_neg hside]
      exact ⟨_, rfl, rfl, rfl⟩
  · push Not at hterms
    obtain ⟨t, ht, hf⟩ := hterms
    obtain ⟨shown, herror⟩ := read_left_error hl ⟨t, ht, by simpa using hf⟩
    rw [herror]
    exact ⟨_, rfl, rfl, rfl⟩

/-- A left side outside the language is refused. -/
lemma read_of_not_written (hl : ∀ left : LeftSide, left.text ≠ dropBlanks l) :
    Form.read l r = .error (.invalidTerm (String.ofList l)) := by
  have hnone : terms? (dropBlanks l) = none := by
    cases h : terms? (dropBlanks l) with
    | none => rfl
    | some terms =>
      obtain ⟨left, hleft, -⟩ := exists_leftSide h
      exact absurd hleft (hl left)
  rw [Form.read, Side.read, hnone]
  rfl

end Reading

section Worth

variable {text : String}

lemma worth_of_error {c : Cause} (h : Form.ofEquation text.toList = .error c) :
    worth (solve text) = .error (c.kind, c.code) := by
  rw [solve, h]
  rfl

lemma worth_of_ok {form : Form} (h : Form.ofEquation text.toList = .ok form) :
    worth (solve text) = match form.solve text with
      | .ok solution => .ok solution.value
      | .error c => .error (c.kind, c.code) := by
  rw [solve, h]
  simp only [Except.mapError, Outcome.ok_bind]
  cases form.solve text <;> rfl

/-- With finite numbers and a finite difference only the quotient is left to decide. -/
lemma worth_of_measured {left : LeftSide} {right : RightSide} (hw : Written text.toList left right)
    (hm : Measured left right) (hd : (difference left right).isFinite) :
    worth (solve text) =
      if left.coefficient == 0 then
        if left.constant == right.value then .ok (1 / 0) else .ok (0 / 0)
      else if (difference left right / left.coefficient).isFinite then
        .ok (difference left right / left.coefficient)
      else .error (.calculation, "3007") := by
  obtain ⟨l, hl, hread⟩ := ofEquation_of_written hw
  rw [read_of_measured hl hm, if_pos hd] at hread
  rw [worth_of_ok hread, Form.solve]
  by_cases ha : left.coefficient == 0
  · rw [if_pos ha, if_pos ha]
    by_cases hb : left.constant == right.value
    · rw [if_pos hb, if_pos hb]
    · rw [if_neg hb, if_neg hb]
  · rw [if_neg ha, if_neg ha, divide_apply ha]
    by_cases hq : (difference left right / left.coefficient).isFinite
    · rw [if_pos hq, if_pos hq]
      rfl
    · rw [if_neg hq, if_neg hq]
      rfl

/-- Solving follows the ruling. -/
theorem worth_of_ruling {r : Except (Kind × String) Float} (h : Ruling text.toList r) :
    worth (solve text) = r := by
  cases h with
  | notAnEquation hc =>
    exact worth_of_error (by rw [Form.ofEquation, if_pos hc])
  | emptySide hs hb =>
    exact worth_of_error (by rw [ofEquation_of_sides hs, if_pos hb])
  | @wrongRight l r hs hl hr hnone =>
    have hn : ¬isNumeral (unsigned (dropBlanks r)) := by
      intro hn
      obtain ⟨right, hright⟩ := rightSide_iff.mp hn
      exact hnone right hright
    exact worth_of_error (by rw [ofEquation_of_sides hs, if_neg (not_or.mpr ⟨hl, hr⟩), if_neg hn])
  | @wrongLeft l r right hs hl hr hnone =>
    have hbr : ¬Blank r := not_blank_of_dropBlanks (hr ▸ right.text_ne_nil)
    have hread : Form.read (Text.trim l) (dropBlanks r) = _ :=
      read_of_not_written (by rw [Text.dropBlanks_trim]; exact hnone)
    exact worth_of_error (by rw [ofEquation_of_sides hs, if_neg (not_or.mpr ⟨hl, hbr⟩),
      if_pos (rightSide_iff.mpr ⟨right, hr⟩), hread])
  | tooBig hw hm =>
    obtain ⟨l, hl, hread⟩ := ofEquation_of_written hw
    obtain ⟨c, hc, hkind, hcode⟩ := read_of_not_measured hl hm
    rw [worth_of_error (hread.trans hc), hkind, hcode]
  | differenceTooBig hw hm hd =>
    obtain ⟨l, hl, hread⟩ := ofEquation_of_written hw
    rw [read_of_measured hl hm, if_neg hd] at hread
    exact worth_of_error hread
  | identity hw hm hd ha hb => rw [worth_of_measured hw hm hd, if_pos ha, if_pos hb]
  | contradiction hw hm hd ha hb => rw [worth_of_measured hw hm hd, if_pos ha, if_neg hb]
  | quotientTooBig hw hm hd ha hq => rw [worth_of_measured hw hm hd, if_neg ha, if_neg hq]
  | solved hw hm hd ha hq => rw [worth_of_measured hw hm hd, if_neg ha, if_pos hq]

/-- An equation in the language has a ruling. -/
lemma exists_ruling_of_written {s : List Char} {left : LeftSide} {right : RightSide}
    (hw : Written s left right) : ∃ r, Ruling s r := by
  by_cases hm : Measured left right
  · by_cases hd : (difference left right).isFinite
    · by_cases ha : left.coefficient == 0
      · by_cases hb : left.constant == right.value
        · exact ⟨_, .identity hw hm hd ha hb⟩
        · exact ⟨_, .contradiction hw hm hd ha hb⟩
      · by_cases hq : (difference left right / left.coefficient).isFinite
        · exact ⟨_, .solved hw hm hd ha hq⟩
        · exact ⟨_, .quotientTooBig hw hm hd ha hq⟩
    · exact ⟨_, .differenceTooBig hw hm hd⟩
  · exact ⟨_, .tooBig hw hm⟩

/-- Every text has a ruling. -/
theorem exists_ruling (s : List Char) : ∃ r, Ruling s r := by
  by_cases hc : s.count '=' = 1
  · obtain ⟨l, r, hs⟩ := exists_sides hc
    by_cases hb : Blank l ∨ Blank r
    · exact ⟨_, .emptySide hs hb⟩
    · obtain ⟨hbl, hbr⟩ := not_or.mp hb
      by_cases hr : ∃ right : RightSide, right.text = dropBlanks r
      · obtain ⟨right, hr⟩ := hr
        by_cases hl : ∃ left : LeftSide, left.text = dropBlanks l
        · obtain ⟨left, hl⟩ := hl
          exact exists_ruling_of_written (.mk hs hl hr)
        · push Not at hl
          exact ⟨_, .wrongLeft hs hbl hr hl⟩
      · push Not at hr
        exact ⟨_, .wrongRight hs hbl hbr hr⟩
  · exact ⟨_, .notAnEquation hc⟩

/-- Solving gives on every text what the ruling says and nothing else. -/
theorem solve_iff_ruling (text : String) (r : Except (Kind × String) Float) :
    worth (solve text) = r ↔ Ruling text.toList r := by
  constructor
  · rintro rfl
    obtain ⟨r, hr⟩ := exists_ruling text.toList
    rw [worth_of_ruling hr]
    exact hr
  · exact worth_of_ruling

end Worth

end Linear

end Reckoner
