import Mathlib
import Reckoner.Proofs.Equation.Form
import Reckoner.Proofs.Number.Displayed

/-!
# The simplified form

The second line of a derivation shows the equation in the form `ax + b = c`. If its three numbers are shown without
an exponent, it is an equation of the language itself (`Form.exists_sides_simplified`), and what is read of it are
the numbers it was written from, up to the signs of zeros (`Form.exists_ofEquation_simplified`). Such a form has the
same solution and the same lines below the first one (`solve_of_numbers`), so that simplifying twice is no more than
simplifying once (`solve_simplified`).
-/

namespace Reckoner

namespace Number

/-- The same number, or no number on both sides. -/
def Same (x y : Float) : Prop :=
  (x == y) = true ∨ x.isNaN = true ∧ y.isNaN = true

lemma same_of_toRat? {x y : Float} {q : ℚ} (hx : toRat? x = some q) (hy : toRat? y = some q) : Same x y :=
  .inl (by rw [beq_eq hx hy, decide_eq_true rfl])

lemma same_infinity : Same (1 / 0) (1 / 0) :=
  .inl (by decide +kernel)

lemma same_nan : Same (0 / 0) (0 / 0) :=
  .inr (by decide +kernel)

end Number

namespace Linear

open Number (toRat? round? display Same)
open Text (dropBlanks)

/-- The equation in the form `ax + b = c`. -/
def Form.simplified (form : Form) : String :=
  display form.side.coefficient ++ "x " ++ signed form.side.constant ++ " = " ++ display form.right

/-- The coefficient, the constant and the right side are shown without an exponent. -/
structure Form.IsPlain (form : Form) : Prop where
  coefficient : 'e' ∉ (display form.side.coefficient).toList
  constant : 'e' ∉ (signed form.side.constant).toList
  right : 'e' ∉ (display form.right).toList

/-- The numbers that a form holds. -/
structure Form.Numbers (form : Form) (a b c d : ℚ) : Prop where
  coefficient : toRat? form.side.coefficient = some a
  constant : toRat? form.side.constant = some b
  right : toRat? form.right = some c
  difference : toRat? form.difference = some d

section Numbers

variable {form form' : Form} {a b c d : ℚ} {equation equation' : String} {solution : Solution}

/-- The numbers of an equation that is read are finite, and the last one is the difference of two others. -/
lemma Form.exists_numbers {left : LeftSide} {right : RightSide} (hm : Measured left right)
    (hd : (Linear.difference left right).isFinite) :
    ∃ a b c d, (Form.ofSides left right).Numbers a b c d ∧ round? (c - b) = some d := by
  obtain ⟨a, ha⟩ := (Number.isFinite_iff _).mp hm.coefficient
  obtain ⟨b, hb⟩ := (Number.isFinite_iff _).mp hm.constant
  obtain ⟨d, hd⟩ := (Number.isFinite_iff _).mp hd
  obtain ⟨q, hq⟩ := (Number.isFinite_iff _).mp hm.right
  obtain ⟨c, hc⟩ : ∃ c, toRat? right.value = some c := by
    rw [RightSide.value]
    split
    · exact ⟨-q, Number.toRat?_neg hq⟩
    · exact ⟨q, hq⟩
  exact ⟨a, b, c, d, ⟨ha, hb, hc, hd⟩, (Number.toRat?_sub hc hb).symm.trans hd⟩

lemma signed_congr {x y : Float} {q : ℚ} (hx : toRat? x = some q) (hy : toRat? y = some q) :
    signed x = signed y := by
  simp only [signed, Number.lt_iff hx Number.toRat?_zero, Number.lt_iff hy Number.toRat?_zero,
    Number.display_congr hx hy, Number.display_congr (Number.toRat?_neg hx) (Number.toRat?_neg hy)]

/-- The lines below the first one depend on the numbers only. -/
lemma Form.drop_steps (h : form.Numbers a b c d) (h' : form'.Numbers a b c d) :
    (form'.steps equation').drop 1 = (form.steps equation).drop 1 := by
  simp only [Form.steps, List.drop_succ_cons, List.drop_zero,
    Number.lt_iff h.constant Number.toRat?_zero, Number.lt_iff h'.constant Number.toRat?_zero,
    Number.display_congr h'.coefficient h.coefficient, signed_congr h'.constant h.constant,
    Number.display_congr h'.right h.right, Number.display_congr h'.difference h.difference,
    Number.display_congr h'.constant h.constant,
    Number.display_congr (Number.toRat?_neg h'.constant) (Number.toRat?_neg h.constant)]

/-- A line at the end of both derivations keeps them the same. -/
lemma Form.drop_steps_append (h : form.Numbers a b c d) (h' : form'.Numbers a b c d) (last : String) :
    (form'.steps equation' ++ [last]).drop 1 = (form.steps equation ++ [last]).drop 1 := by
  have hlength (form : Form) (equation : String) : 1 ≤ (form.steps equation).length := by
    simp [Form.steps]
  rw [List.drop_append_of_le_length (hlength _ _), List.drop_append_of_le_length (hlength _ _),
    Form.drop_steps h h']

/-- The solution depends on the numbers only, and so do the lines below the first one. -/
theorem solve_of_numbers (h : form.Numbers a b c d) (h' : form'.Numbers a b c d)
    (hs : form.solve equation = .ok solution) :
    ∃ again, form'.solve equation' = .ok again ∧ Same again.value solution.value ∧
      again.steps.drop 1 = solution.steps.drop 1 := by
  have hzero : (form'.side.coefficient == 0) = (form.side.coefficient == 0) := by
    rw [Number.beq_eq h.coefficient Number.toRat?_zero, Number.beq_eq h'.coefficient Number.toRat?_zero]
  have hequal : (form'.side.constant == form'.right) = (form.side.constant == form.right) := by
    rw [Number.beq_eq h.constant h.right, Number.beq_eq h'.constant h'.right]
  rw [Form.solve] at hs ⊢
  rw [hzero, hequal]
  by_cases ha : form.side.coefficient == 0
  · rw [if_pos ha] at hs ⊢
    by_cases hb : form.side.constant == form.right
    · rw [if_pos hb] at hs ⊢
      cases hs
      exact ⟨_, rfl, Number.same_infinity, Form.drop_steps_append h h' _⟩
    · rw [if_neg hb] at hs ⊢
      cases hs
      exact ⟨_, rfl, Number.same_nan, Form.drop_steps_append h h' _⟩
  · have ha' : ¬form'.side.coefficient == 0 := by rwa [hzero]
    have hne : a ≠ 0 := by
      rwa [Number.beq_eq h.coefficient Number.toRat?_zero, decide_eq_true_iff] at ha
    rw [if_neg ha, divide_apply ha] at hs
    rw [if_neg ha, divide_apply ha']
    by_cases hf : (form.difference / form.side.coefficient).isFinite
    · rw [if_pos hf] at hs
      cases hs
      obtain ⟨q, hq⟩ := (Number.isFinite_iff _).mp hf
      have hq' : toRat? (form'.difference / form'.side.coefficient) = some q := by
        rw [← hq, Number.toRat?_div h.difference h.coefficient hne,
          Number.toRat?_div h'.difference h'.coefficient hne]
      rw [if_pos ((Number.isFinite_iff _).mpr ⟨q, hq'⟩)]
      refine ⟨_, rfl, Number.same_of_toRat? hq' hq, ?_⟩
      rw [Number.display_congr hq' hq, Number.display_congr h'.coefficient h.coefficient]
      exact Form.drop_steps_append h h' _
    · rw [if_neg hf] at hs
      cases hs

/-- A derivation has four lines, and the second one shows the simplified form. -/
lemma Form.steps_of_solve (h : form.solve equation = .ok solution) :
    ∃ last, solution.steps = form.steps equation ++ [last] := by
  rw [Form.solve] at h
  split at h
  · split at h
    · cases h
      exact ⟨_, rfl⟩
    · cases h
      exact ⟨_, rfl⟩
  · obtain ⟨value, -, h⟩ := Outcome.bind_eq_ok.mp h
    cases h
    exact ⟨_, rfl⟩

end Numbers

section Text

variable {x : Float} {q : ℚ}

/-- What is displayed without an exponent is a literal for the size, behind a minus sign if it is negative. -/
lemma exists_literal (hx : toRat? x = some q) (he : 'e' ∉ (display x).toList) :
    ∃ l : Literal, (display x).toList = (if q < 0 then ['-'] else []) ++ l.text ∧
      toRat? l.value = some |q| := by
  obtain ⟨s, n, htext, hs, hn⟩ := Number.exists_spells_display hx he
  exact ⟨⟨s, n, hs⟩, htext, hn⟩

/-- A number behind another one has its sign and a blank before its size. -/
lemma exists_literal_signed (hx : toRat? x = some q) (he : 'e' ∉ (signed x).toList) :
    ∃ l : Literal, (signed x).toList = (if q < 0 then '-' else '+') :: ' ' :: l.text ∧
      toRat? l.value = some |q| := by
  rw [signed] at he ⊢
  by_cases hq : q < 0
  · rw [if_pos ((Number.lt_iff hx Number.toRat?_zero).mpr hq), String.toList_append] at he ⊢
    have hneg := Number.toRat?_neg hx
    obtain ⟨l, htext, hl⟩ := exists_literal hneg fun h => he (List.mem_append_right _ h)
    refine ⟨l, ?_, by rw [hl, abs_neg]⟩
    rw [htext, if_neg (by linarith), if_pos hq]
    rfl
  · rw [if_neg (mt (Number.lt_iff hx Number.toRat?_zero).mp hq), String.toList_append] at he ⊢
    obtain ⟨l, htext, hl⟩ := exists_literal hx fun h => he (List.mem_append_right _ h)
    refine ⟨l, ?_, hl⟩
    rw [htext, if_neg hq, if_neg hq]
    rfl

/-- A part of a numeral is no blank. -/
lemma isBlank_of_isPart {c : Char} (h : Numeral.isPart c) : Text.isBlank c = false := by
  rw [Numeral.isPart, Bool.or_eq_true, decide_eq_true_iff] at h
  obtain h | rfl := h
  · obtain ⟨hl, hu⟩ := Char.isDigit_iff_toNat.mp h
    have hzero : '0'.toNat = 48 := rfl
    have hnine : '9'.toNat = 57 := rfl
    simp [Text.isBlank, Text.inRanges, Text.blankRanges]
    omega
  · decide

lemma Literal.dropBlanks_text (l : Literal) : dropBlanks l.text = l.text :=
  List.filter_eq_self.mpr fun c hc => by rw [isBlank_of_isPart (l.spells.parts c hc)]; rfl

lemma Literal.not_mem_text (l : Literal) {c : Char} (h : Numeral.isPart c = false) : c ∉ l.text := by
  intro hc
  rw [l.spells.parts c hc] at h
  cases h

end Text

section Sides

variable {form : Form} {a b c d q : ℚ} {la lb lc : Literal}

/-- The left side `ax + b`, of which the literals are the sizes. -/
def LeftSide.simplified (a b : ℚ) (la lb : Literal) : LeftSide where
  first := ⟨if a < 0 then ['-'] else [], .multiple la false, by split <;> simp [isSign]⟩
  others := [⟨[if b < 0 then '-' else '+'], .number lb, by split <;> simp [isSign]⟩]
  separated := by simp

/-- The right side `c`, of which the literal is the size. -/
def RightSide.simplified (c : ℚ) (lc : Literal) : RightSide where
  sign := if c < 0 then some '-' else none
  literal := lc
  isSign := by split <;> simp [Linear.isSign]

/-- The number of a term from its sign and its size. -/
lemma SignedTerm.toRat?_value {t : SignedTerm} (hn : t.negative = decide (q < 0))
    (hl : toRat? t.body.size = some |q|) : toRat? t.value = some q := by
  rw [SignedTerm.value, hn]
  simp only [decide_eq_true_iff]
  exact Number.toRat?_restore hl

/-- A sum of one number is this number. -/
lemma toRat?_zero_add {x : Float} (hx : toRat? x = some q) : toRat? (0 + x) = some q := by
  rw [Number.toRat?_add Number.toRat?_zero hx, zero_add, Number.round?_of_isDouble (Number.isDouble_of_toRat? hx)]

lemma LeftSide.toRat?_coefficient (h : toRat? la.value = some |a|) :
    toRat? (LeftSide.simplified a b la lb).coefficient = some a := by
  refine toRat?_zero_add (SignedTerm.toRat?_value ?_ h)
  rw [SignedTerm.negative]
  by_cases ha : a < 0 <;> simp [LeftSide.simplified, ha]

lemma LeftSide.toRat?_constant (h : toRat? lb.value = some |b|) :
    toRat? (LeftSide.simplified a b la lb).constant = some b := by
  refine toRat?_zero_add (SignedTerm.toRat?_value ?_ h)
  rw [SignedTerm.negative]
  by_cases hb : b < 0 <;> simp [hb]

lemma RightSide.toRat?_value (h : toRat? lc.value = some |c|) :
    toRat? (RightSide.simplified c lc).value = some c := by
  rw [RightSide.value, RightSide.simplified, ← Number.toRat?_restore h]
  by_cases hc : c < 0 <;> simp [hc]

lemma LeftSide.text_simplified :
    (LeftSide.simplified a b la lb).text =
      (if a < 0 then ['-'] else []) ++ (la.text ++ 'x' :: (if b < 0 then '-' else '+') :: lb.text) := by
  simp [LeftSide.text, LeftSide.terms, LeftSide.simplified, SignedTerm.text, Body.text]

lemma RightSide.text_simplified :
    (RightSide.simplified c lc).text = (if c < 0 then ['-'] else []) ++ lc.text := by
  by_cases hc : c < 0 <;> simp [RightSide.text, RightSide.simplified, hc]

/-- The simplified form is an equation with the sizes of its numbers. -/
theorem Form.exists_sides_simplified (h : form.Numbers a b c d) (hp : form.IsPlain) :
    ∃ la lb lc : Literal, toRat? la.value = some |a| ∧ toRat? lb.value = some |b| ∧
      toRat? lc.value = some |c| ∧
      Written form.simplified.toList (.simplified a b la lb) (.simplified c lc) := by
  obtain ⟨la, hla, hva⟩ := exists_literal h.coefficient hp.coefficient
  obtain ⟨lb, hlb, hvb⟩ := exists_literal_signed h.constant hp.constant
  obtain ⟨lc, hlc, hvc⟩ := exists_literal h.right hp.right
  have hsides : Sides form.simplified.toList
      ((if a < 0 then ['-'] else []) ++
        (la.text ++ 'x' :: ' ' :: (if b < 0 then '-' else '+') :: ' ' :: (lb.text ++ [' '])))
      (' ' :: ((if c < 0 then ['-'] else []) ++ lc.text)) := by
    refine ⟨?_, ?_, ?_⟩
    · simp [Form.simplified, hla, hlb, hlc]
    · by_cases ha : a < 0 <;> by_cases hb : b < 0 <;>
        simp [ha, hb, la.not_mem_text, lb.not_mem_text, Numeral.isPart]
    · by_cases hc : c < 0 <;> simp [hc, lc.not_mem_text, Numeral.isPart]
  refine ⟨la, lb, lc, hva, hvb, hvc, .mk hsides ?_ ?_⟩
  · rw [LeftSide.text_simplified]
    by_cases ha : a < 0 <;> by_cases hb : b < 0 <;>
      simp (disch := decide) [ha, hb, Text.dropBlanks_append, Text.dropBlanks_cons_blank, Text.dropBlanks_cons,
        Literal.dropBlanks_text]
  · rw [RightSide.text_simplified]
    by_cases hc : c < 0 <;>
      simp (disch := decide) [hc, Text.dropBlanks_cons_blank, Text.dropBlanks_cons, Literal.dropBlanks_text]

/-- The simplified form is read as the numbers that it was written from. -/
theorem Form.exists_ofEquation_simplified (h : form.Numbers a b c d) (hd : round? (c - b) = some d)
    (hp : form.IsPlain) :
    ∃ form', Form.ofEquation form.simplified.toList = .ok form' ∧ form'.Numbers a b c d := by
  obtain ⟨la, lb, lc, hla, hlb, hlc, hw⟩ := Form.exists_sides_simplified h hp
  have ha : toRat? (LeftSide.simplified a b la lb).coefficient = some a := LeftSide.toRat?_coefficient hla
  have hb : toRat? (LeftSide.simplified a b la lb).constant = some b := LeftSide.toRat?_constant hlb
  have hc := RightSide.toRat?_value hlc
  have hdiff : toRat? (Linear.difference (.simplified a b la lb) (.simplified c lc)) = some d := by
    rw [Linear.difference, Number.toRat?_sub hc hb, hd]
  have hterms : ∀ t ∈ (LeftSide.simplified a b la lb).terms, t.body.size.isFinite :=
    List.forall_mem_cons.mpr ⟨(Number.isFinite_iff _).mpr ⟨_, hla⟩,
      List.forall_mem_singleton.mpr ((Number.isFinite_iff _).mpr ⟨_, hlb⟩)⟩
  have hm : Measured (.simplified a b la lb) (.simplified c lc) :=
    ⟨hterms, (Number.isFinite_iff _).mpr ⟨_, hlc⟩, (Number.isFinite_iff _).mpr ⟨_, ha⟩,
      (Number.isFinite_iff _).mpr ⟨_, hb⟩⟩
  exact ⟨_, ofEquation_of_measured hw hm ((Number.isFinite_iff _).mpr ⟨_, hdiff⟩), ha, hb, hc, hdiff⟩

end Sides

/-- A derivation has four lines. Its second line shows the simplified form, and if no number is shown there with an
exponent, the simplified form can be solved, with the same solution and the same lines below the first one. -/
theorem solve_simplified {text : String} {solution : Solution} (h : solve text = .ok solution) :
    solution.steps.length = 4 ∧
      ∃ form, Form.ofEquation text.toList = .ok form ∧
        solution.steps[1]? = some ("Simplified form: " ++ form.simplified) ∧
        (form.IsPlain → ∃ again, solve form.simplified = .ok again ∧ Same again.value solution.value ∧
          again.steps.drop 1 = solution.steps.drop 1) := by
  cases hf : Form.ofEquation text.toList with
  | error c =>
    rw [solve_of_error hf] at h
    cases h
  | ok form =>
    rw [solve_of_form hf, Outcome.mapError_eq_ok] at h
    obtain ⟨last, hlast⟩ := Form.steps_of_solve h
    refine ⟨by rw [hlast]; rfl, form, rfl, ?_, fun hp => ?_⟩
    · rw [hlast, Form.simplified]
      simp [Form.steps, String.append_assoc]
    · obtain ⟨left, right, -, hm, hd, rfl⟩ := ofEquation_eq_ok_iff.mp hf
      obtain ⟨a, b, c, d, hn, hround⟩ := Form.exists_numbers hm hd
      obtain ⟨form', hread, hn'⟩ := Form.exists_ofEquation_simplified hn hround hp
      obtain ⟨again, hs, hsame, hsteps⟩ := solve_of_numbers hn hn' h
      exact ⟨again, by rw [solve_of_form hread, hs]; rfl, hsame, hsteps⟩

/-- Two terms with the variable, collected. -/
lemma exists_form_collected :
    ∃ form solution, Form.ofEquation "x + 5 + x = 11".toList = .ok form ∧
      solve "x + 5 + x = 11" = .ok solution ∧ form.simplified = "2x + 5 = 11" ∧ form.IsPlain := by
  let five : Literal := ⟨['5'], ⟨['5'], []⟩, .whole (by simp) (by simp)⟩
  let eleven : Literal := ⟨['1', '1'], ⟨['1', '1'], []⟩, .whole (by simp) (by simp)⟩
  let left : LeftSide :=
    ⟨⟨[], .bare, by simp⟩, [⟨['+'], .number five, by simp [isSign]⟩, ⟨['+'], .bare, by simp [isSign]⟩], by simp⟩
  let right : RightSide := ⟨none, eleven, by simp⟩
  have hw : Written "x + 5 + x = 11".toList left right :=
    .mk (l := "x + 5 + x ".toList) (r := " 11".toList) ⟨rfl, by decide, by decide⟩ (by decide +kernel)
      (by decide +kernel)
  have hm : Measured left right :=
    ⟨by decide +kernel, by decide +kernel, by decide +kernel, by decide +kernel⟩
  have hread := ofEquation_of_measured hw hm (by decide +kernel)
  have hplain : (Form.ofSides left right).IsPlain :=
    ⟨by decide +kernel, by decide +kernel, by decide +kernel⟩
  cases hs : (Form.ofSides left right).solve "x + 5 + x = 11" with
  | ok solution =>
    exact ⟨_, solution, hread, by rw [solve_of_form hread, hs]; rfl, by decide +kernel, hplain⟩
  | error c =>
    obtain ⟨-, -, hq⟩ := (Form.solve_eq_error_iff _ _).mp hs
    exact absurd (by decide +kernel) hq

theorem solve_simplified_collected :
    ∃ solution again, solve "x + 5 + x = 11" = .ok solution ∧ solution.steps.length = 4 ∧
      solution.steps[1]? = some "Simplified form: 2x + 5 = 11" ∧ solve "2x + 5 = 11" = .ok again ∧
      Same again.value solution.value ∧ again.steps.drop 1 = solution.steps.drop 1 := by
  obtain ⟨form, solution, hread, hs, hform, hplain⟩ := exists_form_collected
  obtain ⟨hlength, form', hread', hstep, hagain⟩ := solve_simplified hs
  obtain rfl : form = form' := Except.ok.inj (hread.symm.trans hread')
  rw [hform] at hstep hagain
  obtain ⟨again, h⟩ := hagain hplain
  exact ⟨solution, again, hs, hlength, hstep, h⟩

end Linear

end Reckoner
