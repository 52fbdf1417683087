import Mathlib
import Reckoner.Proofs.Equation.Grammar
import Reckoner.Proofs.Number.Literal
import Reckoner.Proofs.Outcome

/-!
# The numbers of a linear equation

The coefficient and the constant of a left side are two sums of doubles, each over its own terms from left to
right and starting from zero. Reading the terms computes exactly these two (`ofTerms_eq_ok`), unless one of the
numbers is too big for a double (`ofTerms_eq_error`).
-/

namespace Reckoner

namespace Linear

open Outcome (pure_eq ok_bind error_bind)

/-- The double of a number. -/
def Literal.value (l : Literal) : Float :=
  l.numeral.value

/-- The number of a term without its signs: a bare variable counts one. -/
def Body.size : Body → Float
  | .number l => l.value
  | .bare => 1
  | .multiple l _ => l.value

def Body.hasVariable : Body → Bool
  | .number _ => false
  | .bare => true
  | .multiple _ _ => true

/-- The number of a term, negated by an odd number of minus signs. -/
def SignedTerm.value (t : SignedTerm) : Float :=
  if t.negative then -t.body.size else t.body.size

/-- The sum of terms from left to right, after what stands before them. -/
def total (before : Float) (ts : List SignedTerm) : Float :=
  ts.foldl (fun sum t => sum + t.value) before

/-- The sum of the terms with the variable. -/
def LeftSide.coefficient (l : LeftSide) : Float :=
  total 0 (l.terms.filter (·.body.hasVariable))

/-- The sum of the terms without the variable. -/
def LeftSide.constant (l : LeftSide) : Float :=
  total 0 (l.terms.filter (!·.body.hasVariable))

def RightSide.value (r : RightSide) : Float :=
  if r.sign = some '-' then -r.literal.value else r.literal.value

/-- A number that is read is either a finite double or too big. -/
lemma finiteNumber_text (l : Literal) (shown : List Char) :
    finiteNumber l.text shown = if l.value.isFinite then .ok l.value
      else .error (.numberTooBig (String.ofList shown)) := by
  rw [finiteNumber, Numeral.ofChars?_eq_some_iff.mpr l.spells, Option.bind_some, Numeral.finite?]
  split
  · next x hx =>
    split at hx
    · next hf =>
      cases hx
      exact (if_pos hf).symm
    · cases hx
  · next hx =>
    split at hx
    · cases hx
    · next hf => exact (if_neg hf).symm

lemma isFinite_one : Float.isFinite 1 = true :=
  (Number.isFinite_iff 1).mpr ⟨1, Number.toRat?_one⟩

/-- The number read of a term without its signs. -/
lemma size_term (t : SignedTerm) :
    t.term.size = .ok t.body.size ∧ t.body.size.isFinite = true ∨
      (∃ shown, t.term.size = .error (.numberTooBig shown)) ∧ t.body.size.isFinite = false := by
  have literal (l : Literal) :
      finiteNumber l.text l.text = .ok l.value ∧ l.value.isFinite = true ∨
        (∃ shown, finiteNumber l.text l.text = .error (.numberTooBig shown)) ∧
          l.value.isFinite = false := by
    rw [finiteNumber_text]
    by_cases hf : l.value.isFinite = true
    · exact .inl ⟨if_pos hf, hf⟩
    · exact .inr ⟨⟨_, if_neg hf⟩, by simpa using hf⟩
  obtain ⟨signs, body, hs⟩ := t
  cases body with
  | number l => exact literal l
  | bare => exact .inl ⟨rfl, isFinite_one⟩
  | multiple l starred => exact literal l

lemma value_eq_ok {t : SignedTerm} (h : t.body.size.isFinite = true) : t.term.value = .ok t.value := by
  obtain ⟨hsize, -⟩ | ⟨-, hf⟩ := size_term t
  · obtain ⟨a, ha⟩ := (Number.isFinite_iff _).mp h
    rw [Term.value, hsize, ok_bind, pure_eq, SignedTerm.value]
    congr 1
    change (if t.negative = true then (-1 : Float) else 1) * t.body.size = _
    split
    · exact Number.neg_one_mul_eq ha
    · exact Number.one_mul_eq ha
  · rw [h] at hf
    cases hf

lemma value_eq_error {t : SignedTerm} (h : t.body.size.isFinite = false) :
    ∃ shown, t.term.value = .error (.numberTooBig shown) := by
  obtain ⟨-, hf⟩ | ⟨⟨shown, hsize⟩, -⟩ := size_term t
  · rw [h] at hf
    cases hf
  · exact ⟨shown, by rw [Term.value, hsize]; rfl⟩

/-- A term is added to the sum it belongs to. -/
lemma add_term (side : Side) {t : SignedTerm} (h : t.body.size.isFinite = true) :
    side.add t.term = .ok (if t.body.hasVariable then ⟨side.coefficient + t.value, side.constant⟩
      else ⟨side.coefficient, side.constant + t.value⟩) := by
  have hvar : t.term.hasVariable = t.body.hasVariable := by
    obtain ⟨signs, body, hs⟩ := t
    cases body <;> rfl
  rw [Side.add, value_eq_ok h, ok_bind, hvar]
  split <;> rfl

/-- Reading terms computes the two sums. -/
theorem ofTerms_eq_ok {ts : List SignedTerm} (h : ∀ t ∈ ts, t.body.size.isFinite = true) :
    Side.ofTerms (ts.map SignedTerm.term) =
      .ok ⟨total 0 (ts.filter (·.body.hasVariable)), total 0 (ts.filter (!·.body.hasVariable))⟩ := by
  have run (side : Side) : (ts.map SignedTerm.term).foldlM Side.add side =
      .ok ⟨total side.coefficient (ts.filter (·.body.hasVariable)),
        total side.constant (ts.filter (!·.body.hasVariable))⟩ := by
    induction ts generalizing side with
    | nil => rfl
    | cons t ts ih =>
      obtain ⟨ht, hts⟩ := List.forall_mem_cons.mp h
      rw [List.map_cons, List.foldlM_cons, add_term side ht, ok_bind, ih hts]
      cases hv : t.body.hasVariable <;> simp [hv, total]
  exact run ⟨0, 0⟩

/-- A number that is too big ends the reading. -/
theorem ofTerms_eq_error {ts : List SignedTerm} (h : ∃ t ∈ ts, t.body.size.isFinite = false) :
    ∃ shown, Side.ofTerms (ts.map SignedTerm.term) = .error (.numberTooBig shown) := by
  have run (side : Side) :
      ∃ shown, (ts.map SignedTerm.term).foldlM Side.add side = .error (.numberTooBig shown) := by
    induction ts generalizing side with
    | nil =>
      obtain ⟨t, ht, -⟩ := h
      cases ht
    | cons t ts ih =>
      rw [List.map_cons, List.foldlM_cons]
      cases hf : t.body.size.isFinite with
      | true =>
        rw [add_term side hf, ok_bind]
        apply ih
        obtain ⟨u, hu, hfu⟩ := h
        obtain rfl | hu := List.mem_cons.mp hu
        · rw [hf] at hfu
          cases hfu
        · exact ⟨u, hu, hfu⟩
      | false =>
        obtain ⟨shown, hv⟩ := value_eq_error hf
        exact ⟨shown, by rw [Side.add, hv]; rfl⟩
  exact run ⟨0, 0⟩

end Linear

end Reckoner
