import Mathlib
import Reckoner.Proofs.Expression.Minus

/-!
# Groups in the passes

A closing parenthesis parts a list in two that the passes treat one by one: whatever stands before it,
cutting a text into chunks or lexemes, writing the signs of products and turning unary minus into
subtraction do the same as without it, and start anew behind it. For unary minus this needs that the list
before it closes all its groups, as then no operand reaches beyond (`operandLength?_append_close`).
-/

namespace Reckoner

namespace Text

variable {p : Char → Bool} {c : Char}

/-- A run of a class ends at the latest at a character outside it. -/
lemma takeWhile_append_cons (h : p c = false) (l s : List Char) :
    (l ++ c :: s).takeWhile p = l.takeWhile p := by
  induction l with
  | nil => simp [h]
  | cons d l ih => by_cases hd : p d <;> simp [hd, ih]

lemma dropWhile_append_cons (h : p c = false) (l s : List Char) :
    (l ++ c :: s).dropWhile p = l.dropWhile p ++ c :: s := by
  induction l with
  | nil => simp [h]
  | cons d l ih => by_cases hd : p d <;> simp [hd, ih]

end Text

/-- A mark parts the lexemes of a text. -/
lemma Lexeme.split_append_mark {c : Char} (ha : c.isAlphanum = false)
    (hp : Numeral.isPart c = false) (s t : List Char) :
    split (s ++ c :: t) = split s ++ mark c :: split t := by
  have hc : c.isAlpha = false := by
    rw [Char.isAlphanum, Bool.or_eq_false_iff] at ha
    exact ha.1
  fun_induction split s with
  | case1 => rw [List.nil_append, split_mark_cons hc hp]; rfl
  | case2 d rest hd ih =>
    rw [List.cons_append, split, if_pos hd, Text.takeWhile_append_cons hp,
      Text.dropWhile_append_cons hp, ih]
    rfl
  | case3 d rest hd hl ih =>
    rw [List.cons_append, split, if_neg hd, if_pos hl, Text.takeWhile_append_cons ha,
      Text.dropWhile_append_cons ha, ih]
    rfl
  | case4 d rest hd hl ih =>
    rw [List.cons_append, split, if_neg hd, if_neg hl, ih]
    rfl

namespace Chunk

open Expression (insertTimes isJuxtaposition)

lemma Canonical.append_mark {c : Char} {l r : List Chunk} (hl : Canonical l)
    (hr : Canonical (mark c :: r)) : Canonical (l ++ mark c :: r) := by
  induction l with
  | nil => exact hr
  | cons k l ih =>
    refine ⟨hl.1, ?_, ih hl.2.2⟩
    cases l with
    | nil =>
      rintro d ⟨⟩
      exact endsBefore_of_mark hr.1 k
    | cons j l =>
      have hs := hl.2.1
      have hj := hl.2.2.1
      rw [hj.head?_join] at hs
      exact (hj.head?_join _).symm ▸ hs

lemma split_append_mark {c : Char} (hc : (mark c).Proper) (s t : List Char) :
    split (s ++ c :: t) = split s ++ mark c :: split t := by
  have h := (canonical_split s).append_mark ((canonical_split t).mark_cons hc)
  have e : join (split s ++ mark c :: split t) = s ++ c :: t := by
    rw [join_append, join_cons, join_split, join_split]
    rfl
  rw [← e, split_join h]

/-- The name of a function is a letter with letters and digits behind it. -/
lemma exists_functionName (f : Function) :
    ∃ c l, f.name.toList = c :: l ∧ c.isAlpha ∧ ∀ d ∈ l, d.isAlphanum := by
  cases f <;> exact ⟨_, _, rfl, rfl, List.all_eq_true.mp rfl⟩

lemma isPlain_functionName (f : Function) : ∀ c ∈ f.name.toList, Expression.IsPlain c := by
  obtain ⟨c, l, e, hc, hl⟩ := exists_functionName f
  rw [e]
  exact List.forall_mem_cons.mpr ⟨.inl (by simp [Char.isAlphanum, hc]), isPlain_of_mem hl⟩

/-- The name of a function is no constant at its end. -/
lemma replaceAll_functionName (f : Function) :
    (name f.name.toList).replaceAll = [name f.name.toList] := by
  cases f <;> decide

/-- A mark parts the chunks of a text with its constants replaced. -/
lemma replaced_append_mark {c : Char} (hc : (mark c).Proper) (s t : List Char) :
    replaced (s ++ c :: t) = replaced s ++ mark c :: replaced t := by
  rw [replaced, split_append_mark hc, List.flatMap_append, List.flatMap_cons]
  rfl

lemma replaced_mark_cons {c : Char} (hc : (mark c).Proper) (t : List Char) :
    replaced (c :: t) = mark c :: replaced t := by
  have h₀ : replaced [] = [] := by simp [replaced, split]
  have h := replaced_append_mark hc [] t
  rwa [h₀] at h

/-- The signs of products in two lists and the one between them. -/
lemma insertTimes_append (l : List Chunk) (j k : Chunk) (m : List Chunk) :
    insertTimes (l ++ j :: k :: m) =
      insertTimes (l ++ [j]) ++
        ((if isJuxtaposition j k then [mark '*'] else []) ++ insertTimes (k :: m)) := by
  induction l with
  | nil =>
    rw [List.nil_append, insertTimes]
    split <;> rfl
  | cons a l ih =>
    cases l with
    | nil =>
      simp only [List.cons_append, List.nil_append] at ih ⊢
      rw [insertTimes, ih, insertTimes]
      split <;> rfl
    | cons b l =>
      simp only [List.cons_append] at ih ⊢
      rw [insertTimes, ih, insertTimes]
      split <;> rfl

/-- No product is left out before a mark that opens no group. -/
lemma insertTimes_append_mark {c : Char} (hc : c ≠ '(') (l r : List Chunk) :
    insertTimes (l ++ mark c :: r) = insertTimes l ++ insertTimes (mark c :: r) := by
  rcases List.eq_nil_or_concat l with rfl | ⟨l, j, rfl⟩
  · rfl
  · have h : ¬isJuxtaposition j (mark c) := by simp [isJuxtaposition, isName, isNumber, hc]
    rw [List.concat_eq_append, List.append_assoc, List.singleton_append, insertTimes_append,
      if_neg h, List.nil_append]

lemma insertTimes_mark_cons {c : Char} (hc : c ≠ ')') (l : List Chunk) :
    insertTimes (mark c :: l) = mark c :: insertTimes l := by
  cases l with
  | nil => rfl
  | cons k l => rw [insertTimes, if_neg (by simp [isJuxtaposition, isNumber, hc])]

end Chunk

namespace Expression

open Chunk (mark number outline outline_nil outline_cons outline_append)

/-- A list that closes no group which is open before it is all inside that group. -/
lemma groupLength_append {d e : Nat} {l : List Chunk} (h : depthAfter d (outline l) = some e)
    (r : List Chunk) : groupLength (d + 1) (l ++ r) = l.length + groupLength (e + 1) r := by
  induction l generalizing d with
  | nil =>
    cases h
    exact (Nat.zero_add _).symm
  | cons k l ih =>
    rw [List.cons_append, groupLength, List.length_cons]
    by_cases ho : k = mark '('
    · subst ho
      rw [if_pos rfl, ih h]
      omega
    rw [if_neg ho]
    by_cases hc : k = mark ')'
    · subst hc
      cases d with
      | zero => cases h
      | succ d =>
        rw [if_pos rfl, if_neg (by omega), Nat.add_sub_cancel, ih (d := d) h]
        omega
    · rw [outline_cons, depthAfter_cons, depthStep_symbol ho hc] at h
      rw [if_neg hc, ih h]
      omega

/-- A group that closes within a list ends where it does whatever follows. -/
lemma groupLength_append_of_closed {d e g : Nat} {l : List Chunk} (he : e ≤ d)
    (h : depthAfter (d + g + 1) (outline l) = some e) (r : List Chunk) :
    groupLength (g + 1) (l ++ r) = groupLength (g + 1) l := by
  induction l generalizing g with
  | nil =>
    rw [outline_nil, depthAfter_nil, Option.some.injEq] at h
    omega
  | cons k l ih =>
    rw [List.cons_append, groupLength, groupLength]
    by_cases ho : k = mark '('
    · subst ho
      rw [if_pos rfl, if_pos rfl, ih h]
    rw [if_neg ho, if_neg ho]
    by_cases hc : k = mark ')'
    · subst hc
      rw [if_pos rfl, if_pos rfl]
      cases g with
      | zero => rw [if_pos (by omega), if_pos (by omega)]
      | succ g => rw [if_neg (by omega), if_neg (by omega), Nat.add_sub_cancel, ih h]
    · rw [outline_cons, depthAfter_cons, depthStep_symbol ho hc] at h
      rw [if_neg hc, if_neg hc, ih h]

/-- What a countdown covers is there, and leaves the groups open that it leaves open. -/
lemma Spans.depthAfter_take {d n e : Nat} {l : List Chunk} (h : Spans d n l e) :
    n ≤ l.length ∧ depthAfter d (outline l) = depthAfter e (outline (l.drop n)) := by
  induction h with
  | last hk _ => exact ⟨by simp, by rw [outline_cons, depthAfter_cons, hk]; rfl⟩
  | cons hk _ ih =>
    obtain ⟨hn, he⟩ := ih
    refine ⟨by simpa using hn, ?_⟩
    rw [outline_cons, depthAfter_cons, hk]
    exact he

section Close

variable {d : Nat} {l : List Chunk}

/-- An atom does not reach beyond a list that closes its groups. -/
lemma atomLength?_append_close (h : depthAfter d (outline l) = some 0) (r : List Chunk) :
    atomLength? (l ++ mark ')' :: r) = atomLength? l := by
  have group {l : List Chunk} (h : depthAfter (d + 1) (outline l) = some 0) :
      groupLength 1 (l ++ mark ')' :: r) = groupLength 1 l :=
    groupLength_append_of_closed (g := 0) (Nat.zero_le d) h _
  match l, h with
  | [], _ => rfl
  | .number s :: l, _ => rfl
  | [.name s], _ => rfl
  | .name s :: .number t :: l, _ => rfl
  | .name s :: .name t :: l, _ => rfl
  | .name s :: .mark c :: l, h =>
    by_cases hc : c = '('
    · subst hc
      exact congrArg (fun n => some (n + 2)) (group h)
    · simp [atomLength?, hc]
  | .mark c :: l, h =>
    by_cases hc : c = '('
    · subst hc
      exact congrArg (fun n => some (n + 1)) (group h)
    · simp [atomLength?, hc]

lemma powersLength_of_ne {l : List Chunk} (h : l.head? ≠ some (mark '^')) :
    powersLength l = 0 := by
  rw [powersLength]
  · rintro r rfl
    exact h rfl
  · rintro r rfl
    exact h rfl

lemma powersLength_power {l : List Chunk} (h : l.head? ≠ some (mark '-')) :
    powersLength (mark '^' :: l) =
      match atomLength? l with
      | some n => n + 1 + powersLength (l.drop n)
      | none => 0 := by
  have hl : ∀ r, l = mark '-' :: r → False := by
    rintro r rfl
    exact h rfl
  exact powersLength.eq_2 l hl

/-- A list that starts with no operator does not get one by a closing parenthesis. -/
lemma head?_append_close {c : Char} (hc : c ≠ ')') (h : ∀ t, l = mark c :: t → False)
    (r : List Chunk) : (l ++ mark ')' :: r).head? ≠ some (mark c) := by
  cases l with
  | nil => simpa using hc.symm
  | cons k l =>
    rintro ⟨⟩
    exact h l rfl

/-- Powers do not reach beyond a list that closes its groups. -/
lemma powersLength_append_close (h : depthAfter d (outline l) = some 0) (r : List Chunk) :
    powersLength (l ++ mark ')' :: r) = powersLength l := by
  -- The rest of a list behind an atom closes its groups, too.
  have next {d n : Nat} {l : List Chunk} (h : depthAfter d (outline l) = some 0)
      (ha : atomLength? l = some n) :
      n ≤ l.length ∧ ∃ e, depthAfter e (outline (l.drop n)) = some 0 := by
    obtain ⟨e, he⟩ := spans_atom ha d
    obtain ⟨hn, hd⟩ := he.depthAfter_take
    exact ⟨hn, e, hd ▸ h⟩
  fun_induction powersLength l generalizing d with
  | case1 rest n ha ih =>
    have h : depthAfter d (outline rest) = some 0 := h
    obtain ⟨hn, e, he⟩ := next h ha
    rw [List.cons_append, List.cons_append, powersLength, atomLength?_append_close h, ha]
    simp only [List.drop_append_of_le_length hn, ih he]
  | case2 rest ha =>
    have h : depthAfter d (outline rest) = some 0 := h
    rw [List.cons_append, List.cons_append, powersLength, atomLength?_append_close h, ha]
  | case3 rest hr n ha ih =>
    have h : depthAfter d (outline rest) = some 0 := h
    obtain ⟨hn, e, he⟩ := next h ha
    rw [List.cons_append, powersLength_power (head?_append_close (by decide) hr r),
      atomLength?_append_close h, ha]
    simp only [List.drop_append_of_le_length hn, ih he]
  | case4 rest hr ha =>
    have h : depthAfter d (outline rest) = some 0 := h
    rw [List.cons_append, powersLength_power (head?_append_close (by decide) hr r),
      atomLength?_append_close h, ha]
  | case5 l _ hl => exact powersLength_of_ne (head?_append_close (by decide) hl r)

/-- An operand does not reach beyond a list that closes its groups. -/
theorem operandLength?_append_close (h : depthAfter d (outline l) = some 0) (r : List Chunk) :
    operandLength? (l ++ mark ')' :: r) = operandLength? l := by
  rw [operandLength?, operandLength?, atomLength?_append_close h]
  cases ha : atomLength? l with
  | none => rfl
  | some n =>
    obtain ⟨e, he⟩ := spans_atom ha d
    obtain ⟨hn, hd⟩ := he.depthAfter_take
    rw [Option.map_some, Option.map_some, List.drop_append_of_le_length hn,
      powersLength_append_close (hd ▸ h)]

/-- The pass treats a list that closes its groups as if it stood alone, and starts anew behind it. -/
theorem subtractFromZero_append_close (h : depthAfter d (outline l) = some 0)
    {previous : Option Chunk} {pending : List Nat} (hp : ∀ n ∈ pending, 0 < n ∧ n ≤ l.length)
    (r : List Chunk) :
    subtractFromZero previous pending (l ++ mark ')' :: r) =
      subtractFromZero previous pending l ++
        mark ')' :: subtractFromZero (some (mark ')')) [] r := by
  induction l generalizing d previous pending with
  | nil =>
    have hn : pending = [] := by
      cases pending with
      | nil => rfl
      | cons n pending =>
        have hn := hp n List.mem_cons_self
        rw [List.length_nil] at hn
        omega
    rw [hn, List.nil_append, subtractFromZero_cons]
    rfl
  | cons k l ih =>
    obtain ⟨e, h⟩ : ∃ e, depthAfter e (outline l) = some 0 := by
      rw [outline_cons, depthAfter_cons] at h
      obtain ⟨e, -, h⟩ := Option.bind_eq_some_iff.mp h
      exact ⟨e, h⟩
    -- The operand of a minus is the same with or without the rest, so the countdown that it starts is,
    -- too, and it ends within the list.
    have hg : groupedOperand? previous k (l ++ mark ')' :: r) = groupedOperand? previous k l := by
      rw [groupedOperand?, groupedOperand?, operandLength?_append_close h]
    have hn : ∀ n ∈ (groupedOperand? previous k l).toList ++ advance 1 pending,
        0 < n ∧ n ≤ l.length := by
      intro n hn
      rcases List.mem_append.mp hn with hn | hn
      · obtain ⟨-, -, hn⟩ := groupedOperand?_eq_some (Option.mem_toList.mp hn)
        obtain ⟨f, hf⟩ := spans_operand hn e
        exact ⟨hf.pos, hf.depthAfter_take.1⟩
      · obtain ⟨hpos, hm⟩ := mem_advance hn
        have := (hp _ hm).2
        rw [List.length_cons] at this
        exact ⟨hpos, by omega⟩
    rw [List.cons_append, subtractFromZero_cons, subtractFromZero_cons, opening, opening, hg,
      ih h hn]
    simp only [List.append_assoc, List.cons_append]

/-- A minus after an opening parenthesis is treated as one at the start. -/
lemma subtractFromZero_open (pending : List Nat) (l : List Chunk) :
    subtractFromZero (some (mark '(')) pending l = subtractFromZero none pending l := by
  cases l with
  | nil => rfl
  | cons k l => simp [subtractFromZero_cons, opening, IsLeading, groupedOperand?, Chunk.isOperator,
      Operator.ofChar?, Operator.all, Operator.symbol]

end Close

end Expression

end Reckoner
