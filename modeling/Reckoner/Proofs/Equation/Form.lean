import Mathlib
import Reckoner.Proofs.Equation.Ruling

/-!
# Equations in numbers

An equation is first read as numbers, the two sums, the right side and the difference, and then divided. It can be
read exactly if it is in the language and all these numbers are finite (`ofEquation_eq_ok_iff`). Whatever keeps it
from being read is reported with the equation. Once it is read, only the quotient can be too big, and that failure
comes without the equation (`equation_of_solve`).
-/

namespace Reckoner

namespace Linear

open Text (Blank dropBlanks)

variable {s : List Char} {text : String} {form : Form} {left : LeftSide} {right : RightSide}

/-- The numbers of an equation. -/
def Form.ofSides (left : LeftSide) (right : RightSide) : Form :=
  ⟨⟨left.coefficient, left.constant⟩, right.value, Linear.difference left right⟩

/-- An equation with finite numbers is read as these numbers. -/
lemma ofEquation_of_measured (hw : Written s left right) (hm : Measured left right)
    (hd : (difference left right).isFinite) : Form.ofEquation s = .ok (.ofSides left right) := by
  obtain ⟨l, hl, hread⟩ := ofEquation_of_written hw
  rw [hread, read_of_measured hl hm, if_pos hd]
  rfl

/-- What is read as numbers is in the language. -/
lemma written_of_ofEquation (h : Form.ofEquation s = .ok form) :
    ∃ left right, Written s left right := by
  by_cases hc : s.count '=' = 1
  · obtain ⟨l, r, hs⟩ := exists_sides hc
    rw [ofEquation_of_sides hs] at h
    split at h
    · cases h
    · split at h
      · next hnum =>
        obtain ⟨right, hr⟩ := rightSide_iff.mp hnum
        by_contra hnot
        have hl : ∀ left : LeftSide, left.text ≠ dropBlanks (Text.trim l) := by
          intro left hl
          rw [Text.dropBlanks_trim] at hl
          exact hnot ⟨left, right, .mk hs hl hr⟩
        rw [read_of_not_written hl] at h
        cases h
      · cases h
  · rw [Form.ofEquation, if_pos hc] at h
    cases h

/-- An equation is read as numbers exactly if it is in the language and its numbers and the difference are finite. -/
theorem ofEquation_eq_ok_iff :
    Form.ofEquation s = .ok form ↔ ∃ left right, Written s left right ∧ Measured left right ∧
      (difference left right).isFinite ∧ form = .ofSides left right := by
  constructor
  · intro h
    obtain ⟨left, right, hw⟩ := written_of_ofEquation h
    obtain ⟨l, hl, hread⟩ := ofEquation_of_written hw
    rw [hread] at h
    by_cases hm : Measured left right
    · rw [read_of_measured hl hm] at h
      split at h
      · next hd =>
        cases h
        exact ⟨left, right, hw, hm, hd, rfl⟩
      · cases h
    · obtain ⟨c, hc, -⟩ := read_of_not_measured hl hm
      rw [hc] at h
      cases h
  · rintro ⟨left, right, hw, hm, hd, rfl⟩
    exact ofEquation_of_measured hw hm hd

/-- What is wrong with an equation is reported with it. -/
lemma solve_of_error {c : Cause} (h : Form.ofEquation text.toList = .error c) :
    solve text = .error ⟨c, some text⟩ := by
  rw [solve, h]
  rfl

lemma solve_of_form (h : Form.ofEquation text.toList = .ok form) :
    solve text = (form.solve text).mapError fun cause => ⟨cause, none⟩ := by
  rw [solve, h]
  rfl

/-- An equation in numbers has a solution unless its quotient is too big. -/
lemma Form.solve_eq_error_iff (form : Form) (equation : String) {c : Cause} :
    form.solve equation = .error c ↔
      c = .resultNotFinite "/" ∧ ¬form.side.coefficient == 0 ∧
        ¬(form.difference / form.side.coefficient).isFinite := by
  rw [Form.solve]
  by_cases ha : form.side.coefficient == 0
  · rw [if_pos ha]
    refine iff_of_false (fun h => ?_) fun h => h.2.1 ha
    split at h <;> cases h
  · rw [if_neg ha, divide_apply ha]
    by_cases hq : (form.difference / form.side.coefficient).isFinite
    · rw [if_pos hq]
      refine iff_of_false (fun h => ?_) fun h => h.2.2 hq
      cases h
    · rw [if_neg hq, Outcome.error_bind, Except.error.injEq]
      exact ⟨fun h => ⟨h.symm, ha, hq⟩, fun h => h.1.symm⟩

/-- Only the quotient of an equation is too big: its numbers and the difference are finite, and there is something
to divide by. -/
def QuotientTooBig (s : List Char) : Prop :=
  ∃ left right, Written s left right ∧ Measured left right ∧ (difference left right).isFinite ∧
    ¬left.coefficient == 0 ∧ ¬(difference left right / left.coefficient).isFinite

/-- An equation that cannot be read is named; one that can be read has a solution unless its quotient is too big,
and then it is not named. -/
lemma solve_cases (text : String) :
    ¬QuotientTooBig text.toList ∧ (∃ c, solve text = .error ⟨c, some text⟩) ∨
      ¬QuotientTooBig text.toList ∧ (∃ solution, solve text = .ok solution) ∨
      QuotientTooBig text.toList ∧ solve text = .error ⟨.resultNotFinite "/", none⟩ := by
  cases hf : Form.ofEquation text.toList with
  | error c =>
    refine .inl ⟨?_, c, solve_of_error hf⟩
    rintro ⟨left, right, hw, hm, hd, -⟩
    rw [ofEquation_of_measured hw hm hd] at hf
    cases hf
  | ok form =>
    obtain ⟨left, right, hw, hm, hd, rfl⟩ := ofEquation_eq_ok_iff.mp hf
    rw [solve_of_form hf]
    cases hs : (Form.ofSides left right).solve text with
    | ok solution =>
      refine .inr (.inl ⟨?_, solution, rfl⟩)
      rintro ⟨left', right', hw', hm', hd', hq⟩
      -- The text may have other sides, but their numbers are the ones that are read.
      have e : Form.ofSides left' right' = .ofSides left right :=
        Except.ok.inj ((ofEquation_of_measured hw' hm' hd').symm.trans hf)
      have herror := (Form.solve_eq_error_iff (.ofSides left' right') text).mpr ⟨rfl, hq⟩
      rw [e, hs] at herror
      cases herror
    | error c =>
      obtain ⟨rfl, hq⟩ := (Form.solve_eq_error_iff _ _).mp hs
      exact .inr (.inr ⟨⟨left, right, hw, hm, hd, hq⟩, rfl⟩)

/-- Which failures name the equation: all but that of a quotient which is too big, and it names none. -/
theorem equation_of_solve (text : String) :
    (∀ failure, solve text = .error failure →
        (failure.equation = some text ↔ ¬QuotientTooBig text.toList)) ∧
      (solve text = .error ⟨.resultNotFinite "/", none⟩ ↔ QuotientTooBig text.toList) := by
  obtain ⟨hq, c, hs⟩ | ⟨hq, solution, hs⟩ | ⟨hq, hs⟩ := solve_cases text
  · rw [hs]
    refine ⟨?_, iff_of_false (by simp) hq⟩
    rintro _ ⟨⟩
    exact iff_of_true rfl hq
  · rw [hs]
    exact ⟨nofun, iff_of_false nofun hq⟩
  · rw [hs]
    refine ⟨?_, iff_of_true rfl hq⟩
    rintro _ ⟨⟩
    exact iff_of_false nofun (not_not.mpr hq)

/-- A hundredth into 10^308, of which both are doubles. -/
lemma quotientTooBig_hundredth : QuotientTooBig (".01x=1".toList ++ List.replicate 308 '0') := by
  let hundredth : Literal := ⟨['.', '0', '1'], ⟨[], ['0', '1']⟩, .fraction (by simp) (by simp)⟩
  let large : Literal := ⟨'1' :: List.replicate 308 '0', ⟨'1' :: List.replicate 308 '0', []⟩,
    .whole (List.cons_ne_nil _ _)
      (List.forall_mem_cons.mpr ⟨rfl, fun c hc => List.eq_of_mem_replicate hc ▸ rfl⟩)⟩
  let left : LeftSide := ⟨⟨[], .multiple hundredth false, by simp⟩, [], by simp⟩
  let right : RightSide := ⟨none, large, by simp⟩
  have hw : Written (".01x=1".toList ++ List.replicate 308 '0') left right :=
    .mk (l := ".01x".toList) (r := '1' :: List.replicate 308 '0')
      ⟨rfl, by decide, by decide +kernel⟩ rfl (by decide +kernel)
  have hm : Measured left right :=
    ⟨List.forall_mem_singleton.mpr (by decide +kernel), by decide +kernel, by decide +kernel,
      by decide +kernel⟩
  exact ⟨left, right, hw, hm, by decide +kernel, by decide +kernel, by decide +kernel⟩

lemma solve_of_quotientTooBig (h : QuotientTooBig s) :
    solve (String.ofList s) = .error ⟨.resultNotFinite "/", none⟩ := by
  have hs := solve_cases (String.ofList s)
  rw [String.toList_ofList] at hs
  obtain ⟨hq, -⟩ | ⟨hq, -⟩ | ⟨-, hs⟩ := hs
  · exact absurd h hq
  · exact absurd h hq
  · exact hs

/-- A failure of solving that does not name the equation. -/
theorem solve_unnamed :
    ∃ failure, solve (String.ofList (".01x=1".toList ++ List.replicate 308 '0')) = .error failure ∧
      failure.equation ≠ some (String.ofList (".01x=1".toList ++ List.replicate 308 '0')) :=
  ⟨_, solve_of_quotientTooBig quotientTooBig_hundredth, nofun⟩

end Linear

end Reckoner
