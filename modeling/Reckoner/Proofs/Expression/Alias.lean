import Mathlib
import Reckoner.Proofs.Expression.Grammar
import Reckoner.Proofs.Expression.Outline

/-!
# Blanks and display symbols

The first step of spelling out drops the blanks and writes the display symbols in ASCII. It works
character by character, but for two asterisks in a row, so it goes through a text from mark to mark. A
text `Displays` another one if it shows some of its parts by display symbols; what it displays is what the
first step makes of it (`expand_of_displays`).

No display symbol shows a digit or a point, so numerals are in the text before as they are after
(`Displays.infix_of_parts`). In a text that has only characters of expressions the step finds nothing to do
(`expand_eq_self`).
-/

namespace Reckoner

namespace Expression

/-- A character that the first step of spelling out leaves in place. -/
def Stays (c : Char) : Prop :=
  c ≠ '*' ∧ Text.isBlank c = false ∧ plainForm c = [c]

instance (c : Char) : Decidable (Stays c) :=
  inferInstanceAs (Decidable (_ ∧ _ ∧ _))

/-- A power sign takes two asterisks. -/
lemma foldStars_cons {c : Char} {s : List Char} (h : c = '*' → s.head? ≠ some '*') :
    foldStars (c :: s) = c :: foldStars s := by
  rw [foldStars]
  rintro r hc rfl
  exact h hc rfl

/-- No power sign reaches over another character. -/
lemma foldStars_append {c : Char} (h : c ≠ '*') (s t : List Char) :
    foldStars (s ++ c :: t) = foldStars s ++ c :: foldStars t := by
  fun_induction foldStars s with
  | case1 s ih => simp [foldStars, ih]
  | case2 d s hd ih =>
    rw [List.cons_append, foldStars_cons, ih]
    · rfl
    · intro e
      cases s with
      | nil => simpa using h
      | cons a s =>
        rintro ⟨⟩
        exact hd s e rfl
  | case3 => exact foldStars_cons fun e => absurd e h

/-- The first step goes on behind a character that it leaves in place. -/
lemma expand_append {c : Char} (h : Stays c) (s t : List Char) :
    expand (s ++ c :: t) = expand s ++ c :: expand t := by
  obtain ⟨hs, hb, hp⟩ := h
  rw [expand, Text.dropBlanks_append]
  have hd : Text.dropBlanks (c :: t) = c :: Text.dropBlanks t := by simp [Text.dropBlanks, hb]
  rw [hd, foldStars_append hs, List.flatMap_append, List.flatMap_cons, hp]
  rfl

lemma expand_cons {c : Char} (h : Stays c) (t : List Char) : expand (c :: t) = c :: expand t :=
  expand_append h [] t

lemma expand_append_of_stays {s : List Char} (h : ∀ c ∈ s, Stays c) (t : List Char) :
    expand (s ++ t) = s ++ expand t := by
  induction s with
  | nil => rfl
  | cons c s ih =>
    obtain ⟨hc, hs⟩ := List.forall_mem_cons.mp h
    rw [List.cons_append, expand_cons hc, ih hs, List.cons_append]

/-- An operator before a group is left in place. -/
lemma expand_operator_cons (o : Operator) (t : List Char) :
    expand (o.symbol :: '(' :: t) = o.symbol :: '(' :: expand t := by
  have ho : Stays '(' := by decide
  cases o with
  | multiply =>
    have hs : Text.dropBlanks ('*' :: '(' :: t) = '*' :: '(' :: Text.dropBlanks t := rfl
    have he : Text.dropBlanks ('(' :: t) = '(' :: Text.dropBlanks t := rfl
    rw [← expand_cons ho, Operator.symbol, expand, expand, hs, he,
      foldStars_cons fun _ => by simp]
    rfl
  | add => rw [expand_cons (by decide), expand_cons ho]
  | subtract => rw [expand_cons (by decide), expand_cons ho]
  | divide => rw [expand_cons (by decide), expand_cons ho]
  | power => rw [expand_cons (by decide), expand_cons ho]

lemma tidy_of_append {after : Bool} {s t : List Char} (h : Tidy after (s ++ t)) :
    ∃ b, Tidy b t := by
  induction s generalizing after with
  | nil => exact ⟨after, h⟩
  | cons c s ih => exact ih h.2

/-- An asterisk in a tidy text is not shown before another one. -/
lemma Displays.head?_ne {after : Bool} {r s : List Char} (h : Displays r s)
    (ht : Tidy after ('*' :: s)) : r.head? ≠ some '*' := by
  obtain ⟨-, ht⟩ := ht
  cases h with
  | nil => simp
  | @symbol c r s h =>
    rintro ⟨⟩
    exact absurd (ht.1 rfl rfl).1 (by decide)
  | stars h => exact absurd (ht.1 rfl rfl).1 (by decide)

/-- The first step makes of a text what it displays, if operators stand there as they should. -/
theorem expand_of_displays {raw s : List Char} (h : Displays (Text.dropBlanks raw) s)
    {after : Bool} (ht : Tidy after s) : expand raw = s := by
  rw [expand]
  generalize Text.dropBlanks raw = r at h
  induction h generalizing after with
  | nil => rfl
  | @symbol c r s h ih =>
    obtain ⟨b, hs⟩ := tidy_of_append ht
    have hc : c = '*' → r.head? ≠ some '*' := by
      rintro rfl
      exact h.head?_ne ht
    rw [foldStars_cons hc, List.flatMap_cons, ih hs]
  | @stars r s _ ih =>
    rw [foldStars, List.flatMap_cons, ih ht.2]
    rfl

/-- A display symbol stands for text without digits and points. -/
lemma plainForm_cases (c : Char) :
    plainForm c = [c] ∨ ∃ d s, plainForm c = d :: s ∧ (d :: s).all (!Numeral.isPart ·) := by
  unfold plainForm
  split
  · exact .inr ⟨_, _, rfl, rfl⟩
  · exact .inr ⟨_, _, rfl, rfl⟩
  · exact .inr ⟨_, _, rfl, rfl⟩
  · exact .inr ⟨_, _, rfl, rfl⟩
  · exact .inr ⟨_, _, rfl, rfl⟩
  · exact .inl rfl

/-- The characters of expressions are printable and ASCII. -/
lemma toNat_lt_of_isAllowed {c : Char} (h : isAllowed c) : 0x20 < c.toNat ∧ c.toNat < 0x7F := by
  simp only [isAllowed, Bool.or_eq_true, decide_eq_true_eq, isOperatorChar_iff] at h
  rcases h with (((h | h | h | h | h | h) | h) | h) | h
  · simp only [Char.isAlphanum, Char.isAlpha, Char.isUpper, Char.isLower, Char.isDigit, Bool.or_eq_true,
      Bool.and_eq_true, decide_eq_true_eq, ge_iff_le, UInt32.le_iff_toNat_le] at h
    simp at h
    have : c.toNat = c.val.toNat := rfl
    omega
  all_goals
    subst h
    decide

/-- A character of an expression is no blank. -/
lemma isBlank_of_isAllowed {c : Char} (h : isAllowed c) : Text.isBlank c = false := by
  have := toNat_lt_of_isAllowed h
  simp [Text.isBlank, Text.inRanges, Text.blankRanges]
  omega

/-- A character of an expression is no display symbol. -/
lemma plainForm_of_isAllowed {c : Char} (h : isAllowed c) : plainForm c = [c] := by
  unfold plainForm
  split
  all_goals first | rfl | exact absurd h (by decide)

/-- A text displays what the first step makes of it. -/
theorem displays_expand (raw : List Char) : Displays (Text.dropBlanks raw) (expand raw) := by
  rw [expand]
  generalize Text.dropBlanks raw = r
  fun_induction foldStars r with
  | case1 r ih => exact .stars ih
  | case2 c r _ ih => exact .symbol ih
  | case3 => exact .nil

section Parts

variable {r s w : List Char} (hw : ∀ c ∈ w, Numeral.isPart c)

include hw

/-- Digits and points at the start of a text are displayed as they are. -/
lemma Displays.prefix_of_parts (h : Displays r s) (hs : w <+: s) : w <+: r := by
  induction h generalizing w with
  | nil => exact hs
  | @symbol c r s h ih =>
    cases w with
    | nil => exact List.nil_prefix
    | cons a w =>
      obtain ⟨ha, hw⟩ := List.forall_mem_cons.mp hw
      obtain e | ⟨d, t, e, ht⟩ := plainForm_cases c
      · rw [e, List.singleton_append, List.cons_prefix_cons] at hs
        exact List.cons_prefix_cons.mpr ⟨hs.1, ih hw hs.2⟩
      · rw [e, List.cons_append, List.cons_prefix_cons] at hs
        rw [List.all_cons, ← hs.1, ha] at ht
        cases ht
  | stars h ih =>
    cases w with
    | nil => exact List.nil_prefix
    | cons a w =>
      cases (List.cons_prefix_cons.mp hs).1
      cases (List.forall_mem_cons.mp hw).1

/-- A run of digits and points does not reach into text without them. -/
lemma infix_of_infix_append {t : List Char} (ht : t.all (!Numeral.isPart ·))
    (hs : w <:+: t ++ s) : w <:+: s := by
  induction t with
  | nil => exact hs
  | cons d t ih =>
    rw [List.all_cons, Bool.and_eq_true] at ht
    rw [List.cons_append, List.infix_cons_iff] at hs
    obtain hs | hs := hs
    · cases w with
      | nil => exact List.nil_infix
      | cons a w =>
        rw [← (List.cons_prefix_cons.mp hs).1, (List.forall_mem_cons.mp hw).1] at ht
        cases ht.1
    · exact ih ht.2 hs

/-- Digits and points in a text are displayed as they are. -/
theorem Displays.infix_of_parts (h : Displays r s) (hs : w <:+: s) : w <:+: r := by
  induction h with
  | nil => exact hs
  | @symbol c r s h ih =>
    obtain e | ⟨d, t, e, ht⟩ := plainForm_cases c
    · have hp : w <+: plainForm c ++ s → w <+: c :: r := (Displays.symbol h).prefix_of_parts hw
      rw [e, List.singleton_append] at hp hs
      rw [List.infix_cons_iff] at hs ⊢
      exact hs.imp hp ih
    · rw [e] at hs
      exact List.infix_cons_iff.mpr (.inr (ih (infix_of_infix_append hw ht hs)))
  | @stars r s h ih =>
    have hs : w <:+: s := infix_of_infix_append hw (t := ['^']) rfl hs
    exact List.infix_cons_iff.mpr (.inr (List.infix_cons_iff.mpr (.inr (ih hs))))

end Parts

/-- Characters of expressions show themselves. -/
lemma displays_self {s : List Char} (h : ∀ c ∈ s, isAllowed c) : Displays s s := by
  induction s with
  | nil => exact .nil
  | cons c s ih =>
    obtain ⟨hc, hs⟩ := List.forall_mem_cons.mp h
    have := Displays.symbol (c := c) (ih hs)
    rwa [plainForm_of_isAllowed hc] at this

/-- The first step has nothing to do in an expression whose operators are apart. -/
theorem expand_eq_self {s : List Char} (h : ∀ c ∈ s, isAllowed c)
    (hs : hasRunAfter false s = false) : expand s = s := by
  have hb : Text.dropBlanks s = s :=
    List.filter_eq_self.mpr fun c hc => by rw [isBlank_of_isAllowed (h c hc)]; rfl
  exact expand_of_displays (hb.symm ▸ displays_self h) (tidy_of_hasRunAfter hs)

end Expression

end Reckoner
