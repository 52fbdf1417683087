import Mathlib
import Reckoner.Expression.Check
import Reckoner.Proofs.Expression.Cut

/-!
# Balanced parentheses

A text is balanced when no part of it from the start closes more groups than it opens and the whole
closes as many as it opens. The count of open groups, `depthAfter`, is the running form of this: it is
defined as long as no group is closed that is not open, it goes on from text to text
(`depthAfter_append`), and it ends at zero on balanced texts only (`balanced_iff`). The check for
parenthesis faults reads its outcome off this count (`parenthesisFault?_eq`).
-/

namespace Reckoner

/-- The sign of an operator is no parenthesis. -/
lemma Operator.symbol_ne (o : Operator) : o.symbol ≠ '(' ∧ o.symbol ≠ ')' := by
  cases o <;> decide

namespace Expression

/-- The number of open groups after a character, unless it closes one that is not open. -/
def depthStep (d : Nat) (c : Char) : Option Nat :=
  if c = '(' then some (d + 1)
  else if c = ')' then (if d = 0 then none else some (d - 1))
  else some d

/-- The number of open groups after a text, unless it closes one that is not open. -/
def depthAfter (d : Nat) (s : List Char) : Option Nat :=
  s.foldlM depthStep d

/-- No part from the start closes more groups than it opens, and the whole closes as many. -/
def Balanced (s : List Char) : Prop :=
  (∀ p, p <+: s → p.count ')' ≤ p.count '(') ∧ s.count '(' = s.count ')'

@[simp] lemma depthAfter_nil (d : Nat) : depthAfter d [] = some d := rfl

lemma depthAfter_cons (d : Nat) (c : Char) (s : List Char) :
    depthAfter d (c :: s) = (depthStep d c).bind fun e => depthAfter e s := rfl

lemma depthAfter_singleton (d : Nat) (c : Char) : depthAfter d [c] = depthStep d c := by
  rw [depthAfter_cons]
  exact Option.bind_fun_some _

@[simp] lemma depthAfter_open (d : Nat) (s : List Char) :
    depthAfter d ('(' :: s) = depthAfter (d + 1) s := rfl

@[simp] lemma depthAfter_close_zero (s : List Char) : depthAfter 0 (')' :: s) = none := rfl

@[simp] lemma depthAfter_close_succ (d : Nat) (s : List Char) :
    depthAfter (d + 1) (')' :: s) = depthAfter d s := rfl

lemma depthAfter_other {c : Char} (ho : c ≠ '(') (hc : c ≠ ')') (d : Nat) (s : List Char) :
    depthAfter d (c :: s) = depthAfter d s := by
  simp [depthAfter_cons, depthStep, ho, hc]

lemma depthAfter_operator (o : Operator) (d : Nat) (s : List Char) :
    depthAfter d (o.symbol :: s) = depthAfter d s :=
  depthAfter_other o.symbol_ne.1 o.symbol_ne.2 d s

lemma depthAfter_append (d : Nat) (s t : List Char) :
    depthAfter d (s ++ t) = (depthAfter d s).bind fun e => depthAfter e t := by
  rw [depthAfter, List.foldlM_append]
  rfl

lemma depthAfter_group {s : List Char} (h : ∀ d, depthAfter d s = some d) (d : Nat)
    (t : List Char) : depthAfter d ('(' :: (s ++ ')' :: t)) = depthAfter d t := by
  rw [depthAfter_open, depthAfter_append, h]
  rfl

lemma depthAfter_of_no_parens {s : List Char} (h : ∀ c ∈ s, c ≠ '(' ∧ c ≠ ')') (d : Nat) :
    depthAfter d s = some d := by
  induction s with
  | nil => rfl
  | cons c s ih =>
    obtain ⟨⟨ho, hc⟩, hs⟩ := List.forall_mem_cons.mp h
    rw [depthAfter_other ho hc, ih hs]

/-- Groups that are open from the start stay open below the count. -/
lemma depthAfter_add {d e : Nat} {s : List Char} (h : depthAfter d s = some e) (k : Nat) :
    depthAfter (d + k) s = some (e + k) := by
  induction s generalizing d with
  | nil => cases h; rfl
  | cons c s ih =>
    by_cases ho : c = '('
    · subst ho
      rw [depthAfter_open] at h ⊢
      rw [Nat.add_right_comm]
      exact ih h
    by_cases hc : c = ')'
    · subst hc
      cases d with
      | zero => cases h
      | succ d =>
        rw [Nat.add_right_comm, depthAfter_close_succ]
        exact ih h
    · rw [depthAfter_other ho hc] at h ⊢
      exact ih h

/-- What holds of every part of a text from the start. -/
lemma forall_prefix_cons {P : List Char → Prop} {c : Char} {s : List Char} :
    (∀ p, p <+: c :: s → P p) ↔ P [] ∧ ∀ p, p <+: s → P (c :: p) := by
  constructor
  · intro h
    exact ⟨h [] List.nil_prefix, fun p hp => h _ (List.cons_prefix_cons.mpr ⟨rfl, hp⟩)⟩
  · rintro ⟨h₀, h⟩ p hp
    obtain rfl | ⟨t, rfl, ht⟩ := List.prefix_cons_iff.mp hp
    · exact h₀
    · exact h t ht

/-- The count in terms of the parentheses before every point of the text. -/
lemma depthAfter_eq_some_iff {d e : Nat} {s : List Char} :
    depthAfter d s = some e ↔
      (∀ p, p <+: s → p.count ')' ≤ d + p.count '(') ∧ e + s.count ')' = d + s.count '(' := by
  induction s generalizing d with
  | nil =>
    simp only [depthAfter_nil, Option.some.injEq, List.prefix_nil, forall_eq, List.count_nil]
    omega
  | cons c s ih =>
    rw [forall_prefix_cons]
    by_cases ho : c = '('
    · subst ho
      simp only [depthAfter_open, ih, List.count_nil, List.count_cons_self,
        List.count_cons_of_ne (show '(' ≠ ')' by decide)]
      simp only [Nat.add_assoc, Nat.add_comm 1, Nat.zero_le, true_and]
    by_cases hc : c = ')'
    · subst hc
      cases d with
      | zero =>
        simp only [depthAfter_close_zero, reduceCtorEq, false_iff, not_and, List.count_nil,
          List.count_cons_self, List.count_cons_of_ne (show ')' ≠ '(' by decide)]
        intro h
        have := h.2 [] List.nil_prefix
        simp at this
      | succ d =>
        simp only [depthAfter_close_succ, ih, List.count_nil, List.count_cons_self,
          List.count_cons_of_ne (show ')' ≠ '(' by decide)]
        constructor
        · rintro ⟨h₁, h₂⟩
          exact ⟨⟨by omega, fun p hp => by have := h₁ p hp; omega⟩, by omega⟩
        · rintro ⟨⟨-, h₁⟩, h₂⟩
          exact ⟨fun p hp => by have := h₁ p hp; omega, by omega⟩
    · simp only [depthAfter_other ho hc, ih, List.count_nil, List.count_cons_of_ne ho,
        List.count_cons_of_ne hc, Nat.zero_le, true_and]

/-- A text is balanced if the count of open groups starts and ends at zero. -/
theorem balanced_iff {s : List Char} : Balanced s ↔ depthAfter 0 s = some 0 := by
  rw [depthAfter_eq_some_iff, Balanced]
  simp only [Nat.zero_add]
  exact and_congr_right fun _ => eq_comm

/-- The parenthesis fault of a text is the outcome of the count. -/
theorem parenthesisFault?_eq (d : Nat) (s : List Char) :
    parenthesisFault? d s =
      match depthAfter d s with
      | none => some .missingOpen
      | some 0 => none
      | some (_ + 1) => some .missingClose := by
  induction s generalizing d with
  | nil => cases d <;> rfl
  | cons c s ih =>
    by_cases ho : c = '('
    · subst ho
      rw [depthAfter_open, ← ih]
      cases d <;> rfl
    by_cases hc : c = ')'
    · subst hc
      cases d with
      | zero => rfl
      | succ d => rw [depthAfter_close_succ, ← ih]; rfl
    · rw [depthAfter_other ho hc, ← ih]
      cases d <;> simp [parenthesisFault?, hc]

lemma parenthesisFault?_eq_none_iff {d : Nat} {s : List Char} :
    parenthesisFault? d s = none ↔ depthAfter d s = some 0 := by
  rw [parenthesisFault?_eq]
  split <;> simp_all

end Expression

end Reckoner
