import Mathlib
import Reckoner.Expression.Evaluate
import Reckoner.Proofs.Expression.Minus

/-!
# The verdict of the checks

The checks look at the text after it is spelled out, where groups, zeros and signs have been added. Their
verdict is nevertheless a property of the text before: `verdict` states it there, and `check_spell` says
that the checks come to it. What they look at goes through the stages of spelling out one by one: as
outlines that are alike up to the signs of products, and by the invariant of the countdowns through the
last.
-/

namespace Reckoner

namespace Expression

open Chunk (outline)

/-- A character that no expression has. -/
def IsForeign (c : Char) : Prop :=
  ¬(c.isAlphanum ∨ c ∈ "+-*/^().".toList)

/-- Some operator follows another one directly and is no minus with an operand. -/
def HasLooseOperator (s : List Char) : Prop :=
  ∃ u a b v, s = u ++ a :: b :: v ∧ isOperatorChar a ∧ isOperatorChar b ∧
    ¬(b = '-' ∧ StartsOperand v)

lemma isAllowed_eq_false_iff {c : Char} : isAllowed c = false ↔ IsForeign c := by
  rw [IsForeign, ← Bool.not_eq_true, not_iff_not]
  simp only [isAllowed, Bool.or_eq_true, decide_eq_true_eq, isOperatorChar_iff, String.reduceToList,
    List.mem_cons, List.not_mem_nil, or_false, or_assoc]

/-- A loose operator comes second in a text or later. -/
lemma hasLooseOperator_cons {c : Char} {s : List Char} :
    HasLooseOperator (c :: s) ↔ HasLooseOperator s ∨
      ∃ b ∈ s.head?, isOperatorChar c ∧ isOperatorChar b ∧ ¬(b = '-' ∧ StartsOperand s.tail) := by
  constructor
  · rintro ⟨u, a, b, v, h, ha, hb, hn⟩
    cases u with
    | nil =>
      obtain ⟨rfl, rfl⟩ := List.cons.inj h
      exact .inr ⟨b, rfl, ha, hb, hn⟩
    | cons d u =>
      obtain ⟨rfl, rfl⟩ := List.cons.inj h
      exact .inl ⟨u, a, b, v, rfl, ha, hb, hn⟩
  · rintro (⟨u, a, b, v, rfl, h⟩ | ⟨b, hb, h⟩)
    · exact ⟨c :: u, a, b, v, rfl, h⟩
    · obtain ⟨v, rfl⟩ := List.head?_eq_some_iff.mp hb
      exact ⟨[], c, b, v, rfl, h⟩

/-- A text that is not tidy has a loose operator, unless the one in question comes first. -/
lemma tidy_iff {after : Bool} {s : List Char} :
    Tidy after s ↔
      ¬HasLooseOperator s ∧
        ∀ b ∈ s.head?, after → isOperatorChar b → b = '-' ∧ StartsOperand s.tail := by
  induction s generalizing after with
  | nil =>
    refine iff_of_true trivial ⟨?_, by simp⟩
    rintro ⟨u, a, b, v, h, -⟩
    simp at h
  | cons c s ih =>
    rw [Tidy, ih, hasLooseOperator_cons]
    simp only [List.head?_cons, Option.mem_def, Option.some.injEq, forall_eq', List.tail_cons]
    constructor
    · rintro ⟨h₁, h₂, h₃⟩
      refine ⟨?_, h₁⟩
      rintro (h | ⟨b, hb, ho, hb', h⟩)
      · exact h₂ h
      · exact h (h₃ b hb ho hb')
    · rintro ⟨h₁, h₂⟩
      refine ⟨h₂, fun h => h₁ (.inl h), fun b hb ho hb' => ?_⟩
      by_contra h
      exact h₁ (.inr ⟨b, hb, ho, hb', h⟩)

lemma tidy_false_iff {s : List Char} : Tidy false s ↔ ¬HasLooseOperator s := by
  simp [tidy_iff]

instance (s : List Char) : Decidable (Balanced s) :=
  decidable_of_iff _ balanced_iff.symm

instance (c : Char) : Decidable (IsForeign c) :=
  inferInstanceAs (Decidable (¬_))

instance (s : List Char) : Decidable (StartsOperand s) :=
  inferInstanceAs (Decidable (∃ c ∈ s.head?, _))

/-- Whether a text is tidy can be decided from its start. -/
def decideTidy : (after : Bool) → (s : List Char) → Decidable (Tidy after s)
  | _, [] => .isTrue trivial
  | _, c :: s => @instDecidableAnd _ _ inferInstance (decideTidy (isOperatorChar c) s)

instance (s : List Char) : Decidable (HasLooseOperator s) :=
  @decidable_of_iff _ (¬Tidy false s) (by rw [tidy_false_iff, not_not])
    (@instDecidableNot _ (decideTidy false s))

/-- What the checks say of a text from its state before it is spelled out: the kind and the code of the
first fault, in the order of the checks. -/
def verdict (s : List Char) : Except (Kind × String) Unit :=
  if s = [] then .error (.parsing, "3024")
  else if ¬Balanced s then .error (.parsing, "3002")
  else if ∃ c ∈ s, IsForeign c then .error (.lexing, "3000")
  else if HasLooseOperator s then .error (.parsing, "3005")
  else .ok ()

lemma canonical_spellChunks (raw : List Char) : Chunk.Canonical (spellChunks raw) := by
  rw [Chunk.spellChunks_eq]
  exact canonical_subtractFromZero (Chunk.canonical_signed _)

/-- A spelled-out text is like the outline of its chunks. -/
lemma alike_spell (raw : List Char) : Alike (spell raw) (outline (spellChunks raw)) :=
  Chunk.alike_outline (canonical_spellChunks raw).proper

/-- Spelling out writes something for every text but the empty one. -/
lemma spell_eq_nil_iff (raw : List Char) : spell raw = [] ↔ expand raw = [] := by
  rw [(alike_spell raw).nil, ← (Chunk.alike_signed (expand raw)).nil, Chunk.spellChunks_eq, outline,
    outline, List.map_eq_nil_iff, List.map_eq_nil_iff, subtractFromZero_eq_nil_iff]

/-- Spelling out keeps the groups open that are open. -/
theorem depthAfter_spell (raw : List Char) (d : Nat) :
    depthAfter d (spell raw) = depthAfter d (expand raw) := by
  rw [(alike_spell raw).depth, ← (Chunk.alike_signed (expand raw)).depth, Chunk.spellChunks_eq]
  exact @depthAfter_subtractFromZero d none [] _ (by simp)

/-- Spelling out keeps the foreign characters. -/
lemma mem_spell_iff (raw : List Char) {c : Char} (hc : IsForeign c) :
    c ∈ spell raw ↔ c ∈ expand raw := by
  have hc := isAllowed_eq_false_iff.mpr hc
  rw [(alike_spell raw).foreign c hc, ← (Chunk.alike_signed (expand raw)).foreign c hc,
    Chunk.spellChunks_eq]
  exact mem_subtractFromZero hc

/-- A spelled-out text has an operator run where there was a loose operator. -/
theorem hasOperatorRun_spell (raw : List Char) :
    hasOperatorRun (spell raw) ↔ HasLooseOperator (expand raw) := by
  have h : hasRunAfter false (outline (spellChunks raw)) = false ↔
      Tidy false (outline (Chunk.signed (expand raw))) := by
    rw [Chunk.spellChunks_eq]
    exact @hasRunAfter_subtractFromZero 0 none [] _ (Chunk.canonical_signed _).proper (by simp)
  rw [hasOperatorRun_eq, (alike_spell raw).run, ← not_iff_not, Bool.not_eq_true, h,
    (Chunk.alike_signed (expand raw)).tidy, tidy_false_iff]

/-- The checks of a spelled-out text come to the verdict on the text before. -/
theorem check_spell (raw : List Char) :
    (check (spell raw)).mapError (fun c => (c.kind, c.code)) = verdict (expand raw) := by
  unfold check verdict
  simp only [List.isEmpty_iff, spell_eq_nil_iff]
  by_cases he : expand raw = []
  · rw [if_pos he, if_pos he]
    rfl
  rw [if_neg he, if_neg he]
  by_cases hb : Balanced (expand raw)
  · have hp : parenthesisFault? 0 (spell raw) = none := by
      rw [parenthesisFault?_eq_none_iff, depthAfter_spell]
      exact balanced_iff.mp hb
    rw [hp, if_neg (not_not.mpr hb)]
    cases hf : (spell raw).find? (!isAllowed ·) with
    | some c =>
      have hc : IsForeign c := isAllowed_eq_false_iff.mp (by simpa using List.find?_some hf)
      have hf : ∃ c ∈ expand raw, IsForeign c :=
        ⟨c, (mem_spell_iff raw hc).mp (List.mem_of_find?_eq_some hf), hc⟩
      rw [if_pos hf]
      rfl
    | none =>
      have hn : ¬∃ c ∈ expand raw, IsForeign c := by
        rintro ⟨c, hm, hc⟩
        have := List.find?_eq_none.mp hf c ((mem_spell_iff raw hc).mpr hm)
        rw [isAllowed_eq_false_iff.mpr hc] at this
        exact this rfl
      rw [if_neg hn]
      simp only [hasOperatorRun_spell]
      by_cases hr : HasLooseOperator (expand raw)
      · rw [if_pos hr, if_pos hr]
        rfl
      · rw [if_neg hr, if_neg hr]
        rfl
  · rw [parenthesisFault?_eq, depthAfter_spell, if_pos hb]
    rw [balanced_iff] at hb
    cases hd : depthAfter 0 (expand raw) with
    | none => rfl
    | some d =>
      cases d with
      | succ d => rfl
      | zero => exact absurd hd hb

/-- What a text must be to pass the checks. -/
structure Passes (s : List Char) : Prop where
  nonempty : s ≠ []
  closed (d : Nat) : depthAfter d s = some d
  allowed : ∀ c ∈ s, isAllowed c
  calm : hasRunAfter false s = false

/-- The checks let through what passes them. -/
lemma check_eq_ok_iff {s : List Char} : check s = .ok () ↔ Passes s := by
  unfold check
  constructor
  · intro h
    split at h
    · cases h
    · next he =>
      split at h
      · cases h
      · next hp =>
        split at h
        · cases h
        · next hf =>
          split at h
          · cases h
          · next hr =>
            refine ⟨fun e => he (by rw [e]; rfl), fun d => ?_, fun c hc => ?_, ?_⟩
            · simpa using depthAfter_add (parenthesisFault?_eq_none_iff.mp hp) d
            · simpa using List.find?_eq_none.mp hf c hc
            · rwa [hasOperatorRun_eq, Bool.not_eq_true] at hr
  · intro h
    have hf : s.find? (!isAllowed ·) = none :=
      List.find?_eq_none.mpr fun c hc => by simp [h.allowed c hc]
    rw [if_neg (by simpa using h.nonempty), parenthesisFault?_eq_none_iff.mpr (h.closed 0), hf]
    simp [hasOperatorRun_eq, h.calm]

end Expression

end Reckoner
