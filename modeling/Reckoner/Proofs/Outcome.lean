import Mathlib

/-!
# Outcomes

Computations that may fail are chained in every stage of the calculator. The lemmas here take such a
chain apart: what it takes for a chain to succeed, and where its failure comes from.
-/

namespace Reckoner

namespace Outcome

variable {ε α β : Type}

@[simp] lemma pure_eq (a : α) : (pure a : Except ε α) = .ok a := rfl

@[simp] lemma ok_bind (a : α) (f : α → Except ε β) : (Except.ok a >>= f) = f a := rfl

@[simp] lemma error_bind (c : ε) (f : α → Except ε β) :
    (Except.error c >>= f) = .error c := rfl

/-- A chain succeeds if both parts do. -/
lemma bind_eq_ok {x : Except ε α} {f : α → Except ε β} {b : β} :
    (x >>= f) = .ok b ↔ ∃ a, x = .ok a ∧ f a = .ok b := by
  cases x with
  | error c => simp
  | ok a => simp

/-- A chain fails where one of its parts does. -/
lemma bind_eq_error {x : Except ε α} {f : α → Except ε β} {c : ε} :
    (x >>= f) = .error c ↔ x = .error c ∨ ∃ a, x = .ok a ∧ f a = .error c := by
  cases x with
  | error c => simp
  | ok a => simp

/-- A renamed failure is the failure of the same computation. -/
lemma mapError_eq_error {δ : Type} {x : Except ε α} {f : ε → δ} {d : δ} :
    x.mapError f = .error d ↔ ∃ c, x = .error c ∧ f c = d := by
  cases x with
  | error c => simp [Except.mapError]
  | ok a => simp [Except.mapError]

lemma mapError_eq_ok {δ : Type} {x : Except ε α} {f : ε → δ} {a : α} :
    x.mapError f = .ok a ↔ x = .ok a := by
  cases x with
  | error c => simp [Except.mapError]
  | ok a => simp [Except.mapError]

lemma toOption_eq_some {x : Except ε α} {a : α} : x.toOption = some a ↔ x = .ok a := by
  cases x with
  | error c => simp [Except.toOption]
  | ok b => simp [Except.toOption]

/-- Reading a list succeeds if every element is read. -/
lemma mapM_eq_ok {f : α → Except ε β} {l : List α} {r : List β} :
    l.mapM f = .ok r ↔ List.Forall₂ (fun a b => f a = .ok b) l r := by
  induction l generalizing r with
  | nil => simp [eq_comm]
  | cons a l ih =>
    rw [List.mapM_cons, bind_eq_ok, List.forall₂_cons_left_iff]
    simp only [bind_eq_ok, ih, pure_eq, Except.ok.injEq]
    constructor
    · rintro ⟨b, hb, s, hs, rfl⟩
      exact ⟨b, s, hb, hs, rfl⟩
    · rintro ⟨b, s, hb, hs, rfl⟩
      exact ⟨b, hb, s, hs, rfl⟩

/-- Every element of a list is related to one of a list that is related to it. -/
lemma exists_of_forall₂ {R : α → β → Prop} {l : List α} {r : List β} (h : List.Forall₂ R l r)
    {a : α} (ha : a ∈ l) : ∃ b, R a b := by
  induction h with
  | nil => cases ha
  | cons hab _ ih =>
    rcases List.mem_cons.mp ha with rfl | ha
    · exact ⟨_, hab⟩
    · exact ih ha

/-- A list has one that is related to it if every element has. -/
lemma exists_forall₂_iff {R : α → β → Prop} {l : List α} :
    (∃ r, List.Forall₂ R l r) ↔ ∀ a ∈ l, ∃ b, R a b := by
  constructor
  · rintro ⟨r, h⟩ a ha
    exact exists_of_forall₂ h ha
  · intro h
    induction l with
    | nil => exact ⟨[], .nil⟩
    | cons a l ih =>
      obtain ⟨⟨b, hb⟩, hl⟩ := List.forall_mem_cons.mp h
      obtain ⟨r, hr⟩ := ih hl
      exact ⟨b :: r, .cons hb hr⟩

/-- Reading a list fails at the first element that cannot be read. -/
lemma mapM_eq_error {f : α → Except ε β} {l : List α} {c : ε} :
    l.mapM f = .error c ↔
      ∃ before a after, l = before ++ a :: after ∧ (∀ x ∈ before, ∃ b, f x = .ok b) ∧
        f a = .error c := by
  constructor
  · intro h
    induction l with
    | nil => cases h
    | cons a l ih =>
      rw [List.mapM_cons] at h
      rcases bind_eq_error.mp h with h | ⟨b, hb, h⟩
      · exact ⟨[], a, l, rfl, by simp, h⟩
      · rcases bind_eq_error.mp h with h | ⟨s, -, h⟩
        · obtain ⟨before, x, after, rfl, hx, h⟩ := ih h
          exact ⟨a :: before, x, after, rfl, List.forall_mem_cons.mpr ⟨⟨b, hb⟩, hx⟩, h⟩
        · cases h
  · rintro ⟨before, a, after, rfl, hx, h⟩
    induction before with
    | nil => rw [List.nil_append, List.mapM_cons, h, error_bind]
    | cons x before ih =>
      obtain ⟨⟨b, hb⟩, hx⟩ := List.forall_mem_cons.mp hx
      rw [List.cons_append, List.mapM_cons, hb, ok_bind, ih hx, error_bind]

/-- A list that cannot be read has an element that cannot. -/
lemma exists_of_mapM_eq_error {f : α → Except ε β} {l : List α} {c : ε}
    (h : l.mapM f = .error c) : ∃ a ∈ l, f a = .error c := by
  obtain ⟨before, a, after, rfl, -, h⟩ := mapM_eq_error.mp h
  exact ⟨a, List.mem_append_right _ List.mem_cons_self, h⟩

end Outcome

end Reckoner
