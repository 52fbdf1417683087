import Mathlib
import Reckoner.Expression.Spelling
import Reckoner.Proofs.Expression.Balance
import Reckoner.Proofs.Expression.Constant

/-!
# Outlines

The checks before reading look at parentheses, at operators and at characters that no expression has.
Two texts are `Alike` if they agree in all of these. None of them is inside a name or a numeral, so a text
is like the `outline` of its chunks, in which every name and every numeral is one character
(`alike_outline`). Replacing constants and writing the signs of products lead to texts that are alike, so
the chunks before the last stage of spelling out are like the text (`alike_signed`).

`Tidy` says of a text before it is spelled out what the absence of operator runs says of it afterwards:
an operator directly after another one is a minus with an operand.
-/

namespace Reckoner

namespace Expression

/-- The start of an operand: a digit, a point, a letter or an opening parenthesis. -/
def StartsOperand (s : List Char) : Prop :=
  ∃ c ∈ s.head?, c.isDigit ∨ c = '.' ∨ c.isAlpha ∨ c = '('

/-- Every operator directly after another one is a minus with an operand; `after` says whether an
operator stands before the text. -/
def Tidy : Bool → List Char → Prop
  | _, [] => True
  | after, c :: s =>
    (after → isOperatorChar c → c = '-' ∧ StartsOperand s) ∧ Tidy (isOperatorChar c) s

/-- Whether two operators stand side by side; `after` says whether one stands before the text. -/
def hasRunAfter : Bool → List Char → Bool
  | _, [] => false
  | after, c :: s => (after && isOperatorChar c) || hasRunAfter (isOperatorChar c) s

/-- A character of a name or a numeral. -/
def IsPlain (c : Char) : Prop :=
  c.isAlphanum ∨ c = '.'

instance (c : Char) : Decidable (IsPlain c) :=
  inferInstanceAs (Decidable (_ ∨ _))

lemma isOperatorChar_iff {c : Char} :
    isOperatorChar c ↔ c = '+' ∨ c = '-' ∨ c = '*' ∨ c = '/' ∨ c = '^' := by
  rw [isOperatorChar, Operator.ofChar?, List.find?_isSome]
  simp [Operator.all, Operator.symbol, eq_comm]

lemma IsPlain.not_mark {c : Char} (h : IsPlain c) :
    c ≠ '(' ∧ c ≠ ')' ∧ isOperatorChar c = false ∧ isAllowed c := by
  have hne : ∀ d : Char, d.isAlphanum = false → d ≠ '.' → c ≠ d := by
    rintro d ha hp rfl
    rcases h with h | h
    · rw [ha] at h; cases h
    · exact hp h
  have ho : isOperatorChar c = false := by
    rw [Bool.eq_false_iff]
    intro h
    rcases isOperatorChar_iff.mp h with h | h | h | h | h <;>
      exact hne _ (by decide) (by decide) h
  refine ⟨hne _ (by decide) (by decide), hne _ (by decide) (by decide), ho, ?_⟩
  rcases h with h | h <;> simp [isAllowed, h]

lemma hasOperatorRun_eq (s : List Char) : hasOperatorRun s = hasRunAfter false s := by
  have step (c : Char) (s : List Char) :
      hasOperatorRun (c :: s) = hasRunAfter (isOperatorChar c) s := by
    induction s generalizing c with
    | nil => rfl
    | cons d s ih => rw [hasOperatorRun, ih, hasRunAfter]
  cases s with
  | nil => rfl
  | cons c s => rw [step, hasRunAfter, Bool.false_and, Bool.false_or]

lemma tidy_cons {c : Char} (h : isOperatorChar c = false) (after : Bool) (s : List Char) :
    Tidy after (c :: s) ↔ Tidy false s := by
  simp [Tidy, h]

lemma hasRunAfter_cons {c : Char} (h : isOperatorChar c = false) (after : Bool) (s : List Char) :
    hasRunAfter after (c :: s) = hasRunAfter false s := by
  simp [hasRunAfter, h]

/-- A text whose operators are apart is tidy. -/
lemma tidy_of_hasRunAfter {after : Bool} {s : List Char} (h : hasRunAfter after s = false) :
    Tidy after s := by
  induction s generalizing after with
  | nil => trivial
  | cons c s ih =>
    rw [hasRunAfter, Bool.or_eq_false_iff] at h
    refine ⟨fun ha hc => ?_, ih h.2⟩
    rw [ha, hc] at h
    cases h.1

/-- A character that is no operator parts the runs of operators. -/
lemma hasRunAfter_append_cons {c : Char} (h : isOperatorChar c = false) (after : Bool)
    (s t : List Char) :
    hasRunAfter after (s ++ c :: t) = (hasRunAfter after s || hasRunAfter false t) := by
  induction s generalizing after with
  | nil => exact hasRunAfter_cons h after t
  | cons d s ih => rw [List.cons_append, hasRunAfter, hasRunAfter, ih, Bool.or_assoc]

lemma hasRunAfter_group {s : List Char} (h : hasRunAfter false s = false) (after : Bool)
    (t : List Char) : hasRunAfter after ('(' :: (s ++ ')' :: t)) = hasRunAfter false t := by
  rw [hasRunAfter_cons rfl, hasRunAfter_append_cons rfl, h, Bool.false_or]

/-- Nothing that a name or a numeral holds matters to the order of operators. -/
lemma tidy_plain_append {c : Char} {s : List Char} (h : ∀ d ∈ c :: s, IsPlain d) (after : Bool)
    (t : List Char) : Tidy after (c :: s ++ t) ↔ Tidy false t := by
  induction s generalizing after c with
  | nil => exact tidy_cons (h c (by simp)).not_mark.2.2.1 after t
  | cons d s ih =>
    rw [List.cons_append, tidy_cons (h c (by simp)).not_mark.2.2.1]
    exact ih (fun e he => h e (List.mem_cons_of_mem c he)) false

/-- Nothing that a name or a numeral holds is in a run of operators. -/
lemma hasRunAfter_plain_append {c : Char} {s : List Char} (h : ∀ d ∈ c :: s, IsPlain d)
    (after : Bool) (t : List Char) : hasRunAfter after (c :: s ++ t) = hasRunAfter false t := by
  induction s generalizing after c with
  | nil => exact hasRunAfter_cons (h c (by simp)).not_mark.2.2.1 after t
  | cons d s ih =>
    rw [List.cons_append, hasRunAfter_cons (h c (by simp)).not_mark.2.2.1]
    exact ih (fun e he => h e (List.mem_cons_of_mem c he)) false

/-- A name or a numeral starts an operand. -/
lemma IsPlain.startsOperand {c : Char} (h : IsPlain c) (s : List Char) :
    StartsOperand (c :: s) := by
  refine ⟨c, rfl, ?_⟩
  rcases h with h | h
  · rw [Char.isAlphanum, Bool.or_eq_true] at h
    exact h.elim (fun ha => .inr (.inr (.inl ha))) .inl
  · exact .inr (.inl h)

/-- Texts that agree in everything that the checks look at. -/
structure Alike (s t : List Char) : Prop where
  nil : s = [] ↔ t = []
  starts : StartsOperand s ↔ StartsOperand t
  depth (d : Nat) : depthAfter d s = depthAfter d t
  tidy (after : Bool) : Tidy after s ↔ Tidy after t
  run (after : Bool) : hasRunAfter after s = hasRunAfter after t
  foreign (c : Char) : isAllowed c = false → (c ∈ s ↔ c ∈ t)

namespace Alike

variable {s t u : List Char} {c d : Char}

lemma refl (s : List Char) : Alike s s :=
  ⟨Iff.rfl, Iff.rfl, fun _ => rfl, fun _ => Iff.rfl, fun _ => rfl, fun _ _ => Iff.rfl⟩

lemma trans (h₁ : Alike s t) (h₂ : Alike t u) : Alike s u where
  nil := h₁.nil.trans h₂.nil
  starts := h₁.starts.trans h₂.starts
  depth d := (h₁.depth d).trans (h₂.depth d)
  tidy a := (h₁.tidy a).trans (h₂.tidy a)
  run a := (h₁.run a).trans (h₂.run a)
  foreign c hc := (h₁.foreign c hc).trans (h₂.foreign c hc)

lemma symm (h : Alike s t) : Alike t s where
  nil := h.nil.symm
  starts := h.starts.symm
  depth d := (h.depth d).symm
  tidy a := (h.tidy a).symm
  run a := (h.run a).symm
  foreign c hc := (h.foreign c hc).symm

lemma cons (c : Char) (h : Alike s t) : Alike (c :: s) (c :: t) where
  nil := by simp
  starts := Iff.rfl
  depth d := by
    rw [depthAfter_cons, depthAfter_cons]
    cases depthStep d c with
    | none => rfl
    | some e => exact h.depth e
  tidy a := by rw [Tidy, Tidy, h.starts, h.tidy]
  run a := by rw [hasRunAfter, hasRunAfter, h.run]
  foreign e he := by rw [List.mem_cons, List.mem_cons, h.foreign e he]

/-- A name or a numeral is like any of its characters. -/
lemma plain (hc : IsPlain c) (hs : ∀ e ∈ d :: s, IsPlain e) (h : Alike t u) :
    Alike (d :: s ++ t) (c :: u) where
  nil := by simp
  starts := iff_of_true ((hs d (by simp)).startsOperand _) (hc.startsOperand _)
  depth e := by
    have hp : ∀ x ∈ d :: s, x ≠ '(' ∧ x ≠ ')' := fun x hx =>
      ⟨(hs x hx).not_mark.1, (hs x hx).not_mark.2.1⟩
    rw [depthAfter_append, depthAfter_of_no_parens hp,
      depthAfter_other hc.not_mark.1 hc.not_mark.2.1]
    exact h.depth e
  tidy a := by rw [tidy_plain_append hs, tidy_cons hc.not_mark.2.2.1, h.tidy]
  run a := by rw [hasRunAfter_plain_append hs, hasRunAfter_cons hc.not_mark.2.2.1, h.run]
  foreign e he := by
    have hp : ¬IsPlain e := fun hp => by rw [hp.not_mark.2.2.2] at he; cases he
    have hm : e ∉ d :: s := fun hm => hp (hs e hm)
    have hne : e ≠ c := fun heq => hp (heq ▸ hc)
    rw [List.mem_append, h.foreign e he, or_iff_right hm, List.mem_cons, or_iff_right hne]

/-- A group with a plain character in it is like a plain character. -/
lemma group (hc : IsPlain c) (hd : IsPlain d) (h : Alike s t) :
    Alike ('(' :: d :: ')' :: s) (c :: t) where
  nil := by simp
  starts := iff_of_true ⟨'(', rfl, by simp⟩ (hc.startsOperand _)
  depth e := by
    rw [depthAfter_open, depthAfter_other hd.not_mark.1 hd.not_mark.2.1,
      depthAfter_close_succ, depthAfter_other hc.not_mark.1 hc.not_mark.2.1]
    exact h.depth e
  tidy a := by
    rw [tidy_cons rfl, tidy_cons hd.not_mark.2.2.1, tidy_cons rfl, tidy_cons hc.not_mark.2.2.1,
      h.tidy]
  run a := by
    rw [hasRunAfter_cons rfl, hasRunAfter_cons hd.not_mark.2.2.1, hasRunAfter_cons rfl,
      hasRunAfter_cons hc.not_mark.2.2.1, h.run]
  foreign e he := by
    have hp : ∀ x, isAllowed x → e ≠ x := by
      rintro x hx rfl
      rw [hx] at he
      cases he
    simp only [List.mem_cons, hp '(' rfl, hp ')' rfl, hp c hc.not_mark.2.2.2,
      hp d hd.not_mark.2.2.2, false_or, h.foreign e he]

/-- The sign of a product between two operands is not noticed. -/
lemma times (hc : isOperatorChar c = false) (hd : isOperatorChar d = false)
    (h : Alike (d :: s) t) : Alike (c :: '*' :: d :: s) (c :: t) where
  nil := by simp
  starts := Iff.rfl
  depth e := by
    rw [depthAfter_cons, depthAfter_cons]
    cases depthStep e c with
    | none => rfl
    | some e => exact (depthAfter_other (by decide) (by decide) e _).trans (h.depth e)
  tidy a := by
    rw [tidy_cons hc, tidy_cons hc, ← h.tidy, tidy_cons hd, Tidy]
    simp only [reduceCtorEq, false_implies, true_and]
    exact tidy_cons hd _ s
  run a := by
    rw [hasRunAfter_cons hc, hasRunAfter_cons hc, ← h.run, hasRunAfter, Bool.false_and,
      Bool.false_or, hasRunAfter_cons hd, hasRunAfter_cons hd]
  foreign e he := by
    have hp : e ≠ '*' := by
      rintro rfl
      cases he
    rw [List.mem_cons, List.mem_cons, or_iff_right hp, h.foreign e he, List.mem_cons]

end Alike

end Expression

namespace Chunk

open Expression

/-- The character that stands for a chunk in an outline. -/
def symbol : Chunk → Char
  | name _ => 'a'
  | number _ => '0'
  | mark c => c

/-- A text with one character for every chunk. -/
def outline (l : List Chunk) : List Char :=
  l.map symbol

@[simp] lemma outline_nil : outline [] = [] := rfl

@[simp] lemma outline_cons (k : Chunk) (l : List Chunk) :
    outline (k :: l) = k.symbol :: outline l := rfl

@[simp] lemma outline_append (l r : List Chunk) : outline (l ++ r) = outline l ++ outline r :=
  List.map_append

lemma isPlain_of_mem {l : List Char} (h : ∀ c ∈ l, c.isAlphanum) : ∀ c ∈ l, IsPlain c :=
  fun c hc => .inl (h c hc)

/-- A text is like the outline of its chunks. -/
theorem alike_outline {l : List Chunk} (h : ∀ k ∈ l, k.Proper) : Alike (join l) (outline l) := by
  induction l with
  | nil => exact .refl []
  | cons k l ih =>
    obtain ⟨hk, hl⟩ := List.forall_mem_cons.mp h
    rw [join_cons, outline_cons]
    have plain {c : Char} (hs : IsPlain c) (ht : ∀ d ∈ k.text, IsPlain d) :
        Alike (k.text ++ join l) (c :: outline l) := by
      obtain ⟨d, s, e⟩ := List.exists_cons_of_ne_nil hk.text_ne_nil
      rw [e] at ht ⊢
      exact .plain hs ht (ih hl)
    cases hk with
    | name hc hr =>
      refine plain (.inl rfl) (isPlain_of_mem (List.forall_mem_cons.mpr ⟨?_, hr⟩))
      simp [Char.isAlphanum, hc]
    | whole hc hr =>
      refine plain (.inl rfl) (isPlain_of_mem (List.forall_mem_cons.mpr ⟨?_, fun d hd => ?_⟩))
      · simp [Char.isAlphanum, hc]
      · simp [Char.isAlphanum, hr d hd]
    | point hw hr =>
      refine plain (.inl rfl) fun d hd => ?_
      rcases List.mem_append.mp hd with hd | hd
      · exact .inl (by simp [Char.isAlphanum, hw d hd])
      · rcases List.mem_cons.mp hd with rfl | hd
        · exact .inr rfl
        · exact .inl (by simp [Char.isAlphanum, hr d hd])
    | mark => exact (ih hl).cons _

/-- Replacing constants leads to a list that is alike. -/
theorem alike_replaceAll (l : List Chunk) :
    Alike (outline (l.flatMap replaceAll)) (outline l) := by
  have ha : IsPlain 'a' := .inl rfl
  have h₀ : IsPlain '0' := .inl rfl
  induction l with
  | nil => exact .refl []
  | cons k l ih =>
    rw [List.flatMap_cons, outline_append, outline_cons]
    cases k with
    | number d => exact ih.cons _
    | mark c => exact ih.cons _
    | name letters =>
      rw [replaceAll]
      split
      · next k _ =>
        have hv : Alike (outline (valueGroup k) ++ outline (l.flatMap replaceAll))
            ('a' :: outline l) := .group ha h₀ ih
        rw [outline_append, List.append_assoc]
        -- A stem before the group is one more plain character.
        unfold stem
        split
        · exact hv
        · refine (hv.cons 'a').trans (.plain (s := ['a']) ha ?_ (.refl _))
          simpa using ha
      · exact ih.cons _

/-- Writing the signs of products leaves the first chunk in its place. -/
lemma insertTimes_cons (k : Chunk) (l : List Chunk) :
    ∃ r, insertTimes (k :: l) = k :: r := by
  cases l with
  | nil => exact ⟨[], rfl⟩
  | cons j l =>
    rw [insertTimes]
    split <;> exact ⟨_, rfl⟩

/-- Both sides of a product without a sign are operands. -/
lemma isOperatorChar_of_isJuxtaposition {j k : Chunk} (h : isJuxtaposition j k) :
    isOperatorChar j.symbol = false ∧ isOperatorChar k.symbol = false := by
  simp only [isJuxtaposition, Bool.and_eq_true, Bool.or_eq_true, decide_eq_true_eq] at h
  obtain ⟨hj, hk⟩ := h
  constructor
  · cases j with
    | number d => rfl
    | name s => rfl
    | mark c =>
      obtain hj | hj := hj
      · cases hj
      · cases hj
        rfl
  · cases k with
    | number d => rfl
    | name s => rfl
    | mark c =>
      obtain (hk | hk) | ⟨hk, -⟩ := hk
      · cases hk
        rfl
      · cases hk
      · cases hk

/-- Writing the signs of products leads to a list that is alike. -/
theorem alike_insertTimes (l : List Chunk) : Alike (outline (insertTimes l)) (outline l) := by
  fun_induction insertTimes l with
  | case1 j k l h ih =>
    obtain ⟨hj, hk⟩ := isOperatorChar_of_isJuxtaposition h
    obtain ⟨r, e⟩ := insertTimes_cons k l
    rw [e] at ih ⊢
    exact .times hj hk ih
  | case2 j k l _ ih => exact ih.cons _
  | case3 l => exact .refl _

lemma proper_times : (mark '*').Proper := .mark rfl rfl (by decide)

/-- Writing the signs of products leads from canonical lists to canonical lists. -/
theorem canonical_insertTimes {l : List Chunk} (h : Canonical l) : Canonical (insertTimes l) := by
  fun_induction insertTimes l with
  | case1 j k l _ ih =>
    refine ⟨h.1, ?_, .mark_cons proper_times (ih h.2.2)⟩
    rintro c ⟨⟩
    exact endsBefore_of_mark proper_times j
  | case2 j k l _ ih =>
    refine ⟨h.1, ?_, ih h.2.2⟩
    obtain ⟨r, e⟩ := insertTimes_cons k l
    rw [e, h.2.2.1.head?_join]
    have hs := h.2.1
    rwa [h.2.2.1.head?_join] at hs
  | case3 l => exact h

/-- The chunks of a text with its constants replaced. -/
def replaced (s : List Char) : List Chunk :=
  (split s).flatMap replaceAll

/-- The chunks of a text with its constants replaced and the signs of its products written. -/
def signed (s : List Char) : List Chunk :=
  insertTimes (replaced s)

lemma canonical_signed (s : List Char) : Canonical (signed s) := by
  rw [signed, replaced, ← split_substituteAll]
  exact canonical_insertTimes (canonical_split _)

/-- Up to the signs of products nothing changes that the checks look at. -/
theorem alike_signed (s : List Char) : Alike (outline (signed s)) s := by
  have h := alike_outline (canonical_split s).proper
  rw [join_split] at h
  exact (alike_insertTimes _).trans ((alike_replaceAll _).trans h.symm)

/-- Spelling out ends with turning every unary minus into a subtraction. -/
lemma spellChunks_eq (raw : List Char) :
    spellChunks raw = subtractFromZero none [] (signed (expand raw)) := by
  rw [spellChunks, split_substituteAll, signed, replaced]

end Chunk

end Reckoner
