import Mathlib
import Reckoner.Proofs.Expression.Alias
import Reckoner.Proofs.Expression.Group
import Reckoner.Proofs.Expression.Stages

/-!
# Composition

A text that has a value can be put in parentheses and used as an operand, whatever it looks like inside:
spelling out, cutting, reordering and running all treat the group as they treat the text alone. So the
value of a text made of groups is what the operator, the function or the minus between them makes of
their values (`evaluate_of_groups`).
-/

namespace Reckoner

namespace Expression

open Chunk (mark name number outline replaced signed replaced_append_mark
  replaced_mark_cons)

/-- The sign before a group is left out behind another one. -/
lemma insertTimes_close_open (l : List Chunk) :
    insertTimes (mark ')' :: mark '(' :: l) =
      mark ')' :: mark '*' :: mark '(' :: insertTimes l := by
  rw [insertTimes, if_pos (by simp [isJuxtaposition]), Chunk.insertTimes_mark_cons (by decide)]

lemma insertTimes_close_mark {c : Char} (ho : c ≠ '(') (l : List Chunk) :
    insertTimes (mark ')' :: mark c :: l) = mark ')' :: insertTimes (mark c :: l) := by
  rw [insertTimes, if_neg (by simp [isJuxtaposition, Chunk.isName, Chunk.isNumber, ho])]

/-- A text in parentheses. -/
def grouped (s : List Char) : List Char :=
  '(' :: (s ++ [')'])

/-- The chunks behind a closing parenthesis, with it. -/
def behindClose (s : List Char) : List Chunk :=
  insertTimes (mark ')' :: replaced s)

lemma proper_symbol (o : Operator) : (mark o.symbol).Proper := by
  cases o <;> exact .mark rfl rfl (by decide)

lemma signed_grouped_append (s t : List Char) :
    signed (grouped s ++ t) = mark '(' :: signed s ++ behindClose t := by
  have e : grouped s ++ t = '(' :: s ++ ')' :: t := by simp [grouped]
  rw [e, signed, replaced_append_mark Chunk.proper_close, replaced_mark_cons Chunk.proper_open,
    Chunk.insertTimes_append_mark (by decide), Chunk.insertTimes_mark_cons (by decide)]
  rfl

lemma signed_grouped (s : List Char) :
    signed (grouped s) = mark '(' :: signed s ++ [mark ')'] := by
  have h := signed_grouped_append s []
  have h₀ : behindClose [] = [mark ')'] := by
    simp [behindClose, replaced, Chunk.split, insertTimes]
  rwa [List.append_nil, h₀] at h

lemma replaced_grouped (s : List Char) :
    replaced (grouped s) = mark '(' :: replaced (s ++ [')']) :=
  replaced_mark_cons Chunk.proper_open _

lemma behindClose_operator (o : Operator) (s : List Char) :
    behindClose (o.symbol :: grouped s) = mark ')' :: mark o.symbol :: signed (grouped s) := by
  rw [behindClose, replaced_mark_cons (proper_symbol o), insertTimes_close_mark o.symbol_ne.1,
    Chunk.insertTimes_mark_cons o.symbol_ne.2]
  rfl

lemma behindClose_grouped (s : List Char) :
    behindClose (grouped s) = mark ')' :: mark '*' :: signed (grouped s) := by
  rw [behindClose, signed, replaced_grouped, insertTimes_close_open,
    Chunk.insertTimes_mark_cons (by decide)]

lemma signed_call (f : Function) (s : List Char) :
    signed (f.name.toList ++ grouped s) = name f.name.toList :: signed (grouped s) := by
  have hf : (name f.name.toList).Proper := by
    obtain ⟨c, l, e, hc, hl⟩ := Chunk.exists_functionName f
    exact e ▸ .name hc hl
  have hs : replaced (f.name.toList ++ grouped s) =
      name f.name.toList :: replaced (grouped s) := by
    have h := Chunk.split_append (s := grouped s) hf (by
      rintro c ⟨⟩
      exact Chunk.endsBefore_of_mark Chunk.proper_open _)
    rw [replaced, ← Chunk.text.eq_1 f.name.toList, h, List.flatMap_cons, Chunk.replaceAll_functionName]
    rfl
  rw [signed, hs, replaced_grouped, insertTimes,
    if_neg (by simp [isJuxtaposition, Chunk.isNumber]), signed, replaced_grouped]

lemma signed_minus (s : List Char) :
    signed ('-' :: grouped s) = mark '-' :: signed (grouped s) := by
  have hm : (mark '-').Proper := proper_symbol .subtract
  rw [signed, replaced_mark_cons hm, Chunk.insertTimes_mark_cons (by decide)]
  rfl

/-- The pass writes a zero before a minus at the start. -/
lemma subtractFromZero_minus (l : List Chunk) :
    subtractFromZero none [] (mark '-' :: l) =
      number ['0'] :: mark '-' :: subtractFromZero (some (mark '-')) [] l := by
  rw [subtractFromZero_cons, opening, if_pos ⟨rfl, .inl rfl⟩]
  rfl

/-- The pass treats the text in a group as if it stood alone. -/
lemma subtractFromZero_group {s : List Char} (h : Balanced s) (previous : Option Chunk)
    (r : List Chunk) :
    subtractFromZero previous [] (mark '(' :: signed s ++ mark ')' :: r) =
      mark '(' :: subtractFromZero none [] (signed s) ++
        mark ')' :: subtractFromZero (some (mark ')')) [] r := by
  have hd : depthAfter 0 (outline (signed s)) = some 0 := by
    rw [(Chunk.alike_signed s).depth]
    exact balanced_iff.mp h
  rw [List.cons_append, subtractFromZero_cons_of_ne (by simp),
    subtractFromZero_append_close hd (by simp), subtractFromZero_open]
  rfl

/-- The first step of spelling out leaves the parentheses of a group in place. -/
lemma expand_grouped_append (s t : List Char) :
    expand (grouped s ++ t) = grouped (expand s) ++ expand t := by
  have e : grouped s ++ t = '(' :: s ++ ')' :: t := by simp [grouped]
  rw [e, expand_append (by decide), expand_cons (by decide)]
  simp [grouped]

lemma expand_grouped (s : List Char) : expand (grouped s) = grouped (expand s) := by
  have h := expand_grouped_append s []
  rwa [List.append_nil, show expand [] = [] from rfl, List.append_nil] at h

lemma stays_functionName (f : Function) : ∀ c ∈ f.name.toList, Stays c := by
  have h : f.name.toList.all fun c => decide (Stays c) := by cases f <;> decide
  exact fun c hc => of_decide_eq_true (List.all_eq_true.mp h c hc)

section Spell

variable {s t : List Char} (hs : Balanced (expand s)) (ht : Balanced (expand t))

include hs

/-- The last stage on a group at the end. -/
lemma subtractFromZero_grouped (previous : Option Chunk) :
    subtractFromZero previous [] (signed (grouped (expand s))) =
      mark '(' :: spellChunks s ++ [mark ')'] := by
  rw [signed_grouped, subtractFromZero_group hs, Chunk.spellChunks_eq]
  rfl

/-- Spelling out a group. -/
lemma spell_grouped : spell (grouped s) = grouped (spell s) := by
  rw [spell, Chunk.spellChunks_eq, expand_grouped, subtractFromZero_grouped hs]
  simp [Chunk.text, grouped, spell]

lemma spell_call (f : Function) :
    spell (f.name.toList ++ grouped s) = f.name.toList ++ grouped (spell s) := by
  rw [spell, Chunk.spellChunks_eq, expand_append_of_stays (stays_functionName f), expand_grouped,
    signed_call, subtractFromZero_cons_of_ne (by simp), subtractFromZero_grouped hs]
  simp [Chunk.text, grouped, spell]

lemma spell_minus : spell ('-' :: grouped s) = '0' :: '-' :: grouped (spell s) := by
  rw [spell, Chunk.spellChunks_eq, expand_cons (by decide), expand_grouped, signed_minus,
    subtractFromZero_minus, subtractFromZero_grouped hs]
  simp [Chunk.text, grouped, spell]

include ht

lemma spell_operator (o : Operator) :
    spell (grouped s ++ o.symbol :: grouped t) =
      grouped (spell s) ++ o.symbol :: grouped (spell t) := by
  have he : expand (o.symbol :: grouped t) = o.symbol :: grouped (expand t) := by
    rw [grouped, expand_operator_cons, ← expand_grouped, grouped, expand_cons (by decide)]
  rw [spell, Chunk.spellChunks_eq, expand_grouped_append, he, signed_grouped_append,
    behindClose_operator, subtractFromZero_group hs, subtractFromZero_close_cons,
    subtractFromZero_grouped ht, ← Chunk.spellChunks_eq]
  simp [Chunk.text, grouped, spell]

lemma spell_juxtaposed :
    spell (grouped s ++ grouped t) = grouped (spell s) ++ '*' :: grouped (spell t) := by
  rw [spell, Chunk.spellChunks_eq, expand_grouped_append, expand_grouped, signed_grouped_append,
    behindClose_grouped, subtractFromZero_group hs, subtractFromZero_close_cons,
    subtractFromZero_grouped ht, ← Chunk.spellChunks_eq]
  simp [Chunk.text, grouped, spell]

end Spell

section Grouped

variable {s : List Char}

/-- A group of a balanced text leaves no group open. -/
lemma depthAfter_grouped_append (h : Passes s) (d : Nat) (t : List Char) :
    depthAfter d (grouped s ++ t) = depthAfter d t := by
  have e : grouped s ++ t = '(' :: (s ++ ')' :: t) := by simp [grouped]
  rw [e, depthAfter_group h.closed]

/-- A group parts the runs of operators. -/
lemma hasRunAfter_grouped_append (h : Passes s) (after : Bool) (t : List Char) :
    hasRunAfter after (grouped s ++ t) = hasRunAfter false t := by
  have e : grouped s ++ t = '(' :: (s ++ ')' :: t) := by simp [grouped]
  rw [e, hasRunAfter_group h.calm]

lemma allowed_grouped (h : Passes s) : ∀ c ∈ grouped s, isAllowed c := by
  intro c hc
  simp only [grouped, List.mem_cons, List.mem_append, List.not_mem_nil, or_false] at hc
  rcases hc with rfl | hc | rfl
  · rfl
  · exact h.allowed c hc
  · rfl

/-- A group passes the checks. -/
lemma Passes.grouped (h : Passes s) : Passes (grouped s) where
  nonempty := by simp [Expression.grouped]
  closed d := by simpa using depthAfter_grouped_append h d []
  allowed := allowed_grouped h
  calm := by simpa [hasRunAfter] using hasRunAfter_grouped_append h false []

lemma Passes.operator {t : List Char} (hs : Passes s) (ht : Passes t) (o : Operator) :
    Passes (Expression.grouped s ++ o.symbol :: Expression.grouped t) where
  nonempty := by simp [Expression.grouped]
  closed d := by
    rw [depthAfter_grouped_append hs, depthAfter_operator, ht.grouped.closed]
  allowed := by
    have ho : isAllowed o.symbol := by cases o <;> rfl
    intro c hc
    rcases List.mem_append.mp hc with hc | hc
    · exact allowed_grouped hs c hc
    · rcases List.mem_cons.mp hc with rfl | hc
      · exact ho
      · exact allowed_grouped ht c hc
  calm := by
    have h := hasRunAfter_grouped_append ht (isOperatorChar o.symbol) []
    rw [List.append_nil] at h
    rw [hasRunAfter_grouped_append hs, hasRunAfter, Bool.false_and, Bool.false_or, h]
    rfl

lemma Passes.call (h : Passes s) (f : Function) :
    Passes (f.name.toList ++ Expression.grouped s) where
  nonempty := by simp [Expression.grouped]
  closed d := by
    have hp : ∀ c ∈ f.name.toList, c ≠ '(' ∧ c ≠ ')' := fun c hc =>
      have h := (Chunk.isPlain_functionName f c hc).not_mark
      ⟨h.1, h.2.1⟩
    rw [depthAfter_append, depthAfter_of_no_parens hp]
    exact h.grouped.closed d
  allowed := by
    intro c hc
    rcases List.mem_append.mp hc with hc | hc
    · exact (Chunk.isPlain_functionName f c hc).not_mark.2.2.2
    · exact allowed_grouped h c hc
  calm := by
    have hf := Chunk.isPlain_functionName f
    obtain ⟨c, l, e, -⟩ := Chunk.exists_functionName f
    rw [e] at hf ⊢
    rw [hasRunAfter_plain_append hf, h.grouped.calm]

lemma Passes.minus (h : Passes s) : Passes ('0' :: '-' :: Expression.grouped s) where
  nonempty := by simp
  closed d := by
    rw [depthAfter_other (by decide) (by decide), depthAfter_other (by decide) (by decide)]
    exact h.grouped.closed d
  allowed := by
    intro c hc
    simp only [List.mem_cons] at hc
    rcases hc with rfl | rfl | hc
    · rfl
    · rfl
    · exact allowed_grouped h c hc
  calm := by
    have h := hasRunAfter_grouped_append h true []
    rw [List.append_nil] at h
    exact h

/-- The tokens of a group and what stands behind it. -/
lemma tokenize_grouped_append {tokens : List Token} (h : Token.tokenize s = .ok tokens)
    {t : List Char} {rest : List Token} (ht : Token.tokenize t = .ok rest) :
    Token.tokenize (grouped s ++ t) = .ok (.leftParen :: (tokens ++ .rightParen :: rest)) := by
  have e : grouped s ++ t = '(' :: (s ++ ')' :: t) := by simp [grouped]
  rw [Token.tokenize, Outcome.mapM_eq_ok] at h ht ⊢
  rw [e, Lexeme.split_mark_cons rfl rfl, Lexeme.split_append_mark rfl rfl]
  exact .cons rfl (List.rel_append h (.cons rfl ht))

lemma tokenize_grouped {tokens : List Token} (h : Token.tokenize s = .ok tokens) :
    Token.tokenize (grouped s) = .ok (.leftParen :: (tokens ++ [.rightParen])) := by
  have h₀ : Token.tokenize [] = .ok [] := by simp [Token.tokenize, Lexeme.split]
  simpa using tokenize_grouped_append h h₀

lemma split_operator_cons (o : Operator) (s : List Char) :
    Lexeme.split (o.symbol :: s) = .mark o.symbol :: Lexeme.split s := by
  cases o <;> exact Lexeme.split_mark_cons rfl rfl s

lemma tokenize_operator_cons (o : Operator) {tokens : List Token}
    (h : Token.tokenize s = .ok tokens) :
    Token.tokenize (o.symbol :: s) = .ok (.operator o :: tokens) := by
  rw [Token.tokenize, Outcome.mapM_eq_ok] at h ⊢
  rw [split_operator_cons]
  exact .cons (read_operator o) h

lemma tokenize_call (f : Function) {tokens : List Token} (h : Token.tokenize s = .ok tokens) :
    Token.tokenize (f.name.toList ++ grouped s) =
      .ok (.function f :: .leftParen :: (tokens ++ [.rightParen])) := by
  have hg := tokenize_grouped h
  have hs : Lexeme.split (f.name.toList ++ grouped s) =
      .name f.name.toList :: Lexeme.split (grouped s) := by
    have hc : ∀ d ∈ (grouped s).head?, d.isAlphanum = false := by
      rintro d ⟨⟩
      rfl
    obtain ⟨c, l, e, ha, hl⟩ := Chunk.exists_functionName f
    rw [e]
    exact Lexeme.split_name_append ha hl hc
  rw [Token.tokenize, Outcome.mapM_eq_ok] at hg ⊢
  rw [hs]
  exact .cons (read_function f) hg

/-- The tokens of a zero before an operator. -/
lemma tokenize_zero_cons {o : Operator} {tokens : List Token}
    (h : Token.tokenize (o.symbol :: s) = .ok tokens) :
    Token.tokenize ('0' :: o.symbol :: s) = .ok (.number 0 :: tokens) := by
  have hs : Lexeme.split ('0' :: o.symbol :: s) =
      .numeral ['0'] :: Lexeme.split (o.symbol :: s) := by
    have h₀ := Lexeme.split_numeral_append (c := '0') (l := []) (s := o.symbol :: s) rfl (by simp)
    rw [split_operator_cons] at h₀ ⊢
    exact h₀
  rw [Token.tokenize, Outcome.mapM_eq_ok] at h ⊢
  rw [hs]
  exact .cons read_zero h

end Grouped

section Value

variable {s t : List Char} {x y : Float} (hs : Computes s x) (ht : Computes t y)

include hs

/-- The value of a group. -/
lemma evaluateSpelled_grouped : evaluateSpelled (grouped s) = .ok x := by
  obtain ⟨hp, tokens, l, hx, hl, hr⟩ := hs
  have h : Postfix.reorder [] (.leftParen :: (tokens ++ [.rightParen])) = .ok l := by
    rw [Postfix.reorder_leftParen_append hl]
    simp [Postfix.reorder_nil]
  rw [evaluateSpelled_eq hp.grouped (tokenize_grouped hx) h, Postfix.evaluate_eq_ok_iff, hr]

lemma evaluateSpelled_call (f : Function) :
    evaluateSpelled (f.name.toList ++ grouped s) = f.apply x := by
  obtain ⟨hp, tokens, l, hx, hl, hr⟩ := hs
  have h : Postfix.reorder [] (.function f :: .leftParen :: (tokens ++ [.rightParen])) =
      .ok (l ++ [.function f]) := by
    have ho : Postfix.opensGroup (.leftParen :: (tokens ++ [.rightParen])) := rfl
    rw [Postfix.reorder_function, if_pos ho, Postfix.reorder_leftParen_append hl]
    simp [Postfix.reorder_nil]
  rw [evaluateSpelled_eq (hp.call f) (tokenize_call f hx) h, Postfix.evaluate_append_function hr]

lemma evaluateSpelled_minus :
    evaluateSpelled ('0' :: '-' :: grouped s) = Operator.subtract.apply 0 x := by
  obtain ⟨hp, tokens, l, hx, hl, hr⟩ := hs
  have ht := tokenize_zero_cons (tokenize_operator_cons .subtract (tokenize_grouped hx))
  have h : Postfix.reorder [] (.number 0 :: .operator .subtract :: .leftParen ::
      (tokens ++ [.rightParen])) = .ok ([.number 0] ++ (l ++ [.operator .subtract])) := by
    rw [Postfix.reorder_number, Postfix.reorder_operator, List.takeWhile_nil, List.dropWhile_nil,
      Postfix.reorder_leftParen_append hl]
    simp [Postfix.reorder_nil, Postfix.Waiting.token]
  rw [evaluateSpelled_eq hp.minus ht h]
  exact Postfix.evaluate_append_operator rfl hr .subtract

include ht

lemma evaluateSpelled_operator (o : Operator) :
    evaluateSpelled (grouped s ++ o.symbol :: grouped t) = o.apply x y := by
  obtain ⟨hp, tokens, l, hx, hl, hr⟩ := hs
  obtain ⟨hp', tokens', l', hx', hl', hr'⟩ := ht
  have ht := tokenize_grouped_append hx (tokenize_operator_cons o (tokenize_grouped hx'))
  have h : Postfix.reorder [] (.leftParen :: (tokens ++ .rightParen :: .operator o :: .leftParen ::
      (tokens' ++ [.rightParen]))) = .ok (l ++ (l' ++ [.operator o])) := by
    rw [Postfix.reorder_leftParen_append hl, Postfix.ownerOfGroup_nil, Postfix.reorder_operator,
      List.takeWhile_nil, List.dropWhile_nil, Postfix.reorder_leftParen_append hl']
    simp [Postfix.reorder_nil, Postfix.Waiting.token]
  rw [evaluateSpelled_eq (hp.operator hp' o) ht h, Postfix.evaluate_append_operator hr hr']

end Value

/-- A value is the value of what the text spells out, and its parentheses are balanced. -/
lemma computes_of_evaluate {text : String} {x : Float} (h : evaluate text = .ok x) :
    Computes (spell text.toList) x ∧ Balanced (expand text.toList) := by
  have hc := evaluateSpelled_eq_ok_iff.mp (Outcome.mapError_eq_ok.mp h)
  refine ⟨hc, ?_⟩
  rw [balanced_iff, ← depthAfter_spell]
  exact hc.passes.closed 0

/-- Texts that have a value can be put together as operands and arguments: the value of the whole is
computed from theirs. -/
theorem evaluate_of_groups {s t : String} {x y : Float} (hs : evaluate s = .ok x)
    (ht : evaluate t = .ok y) :
    evaluate ("(" ++ s ++ ")") = .ok x ∧
      (∀ o : Operator, IsAnswered ("(" ++ s ++ ")" ++ o.name ++ "(" ++ t ++ ")") (o.apply x y)) ∧
      (∀ f : Function, IsAnswered (f.name ++ "(" ++ s ++ ")") (f.apply x)) ∧
      IsAnswered ("(" ++ s ++ ")(" ++ t ++ ")") (Operator.multiply.apply x y) ∧
      IsAnswered ("-(" ++ s ++ ")") (Operator.subtract.apply 0 x) := by
  obtain ⟨hs, bs⟩ := computes_of_evaluate hs
  obtain ⟨ht, bt⟩ := computes_of_evaluate ht
  refine ⟨?_, fun o => ?_, fun f => ?_, ?_, ?_⟩
  · have e : ("(" ++ s ++ ")").toList = grouped s.toList := by simp [grouped]
    rw [evaluate, e, spell_grouped bs, evaluateSpelled_grouped hs]
    rfl
  · have e : ("(" ++ s ++ ")" ++ o.name ++ "(" ++ t ++ ")").toList =
        grouped s.toList ++ o.symbol :: grouped t.toList := by
      simp [grouped, Operator.name]
    rw [IsAnswered, evaluate, e, spell_operator bs bt, evaluateSpelled_operator hs ht]
  · have e : (f.name ++ "(" ++ s ++ ")").toList = f.name.toList ++ grouped s.toList := by
      simp [grouped]
    rw [IsAnswered, evaluate, e, spell_call bs, evaluateSpelled_call hs]
  · have e : ("(" ++ s ++ ")(" ++ t ++ ")").toList = grouped s.toList ++ grouped t.toList := by
      simp [grouped]
    rw [IsAnswered, evaluate, e, spell_juxtaposed bs bt]
    exact congrArg _ (evaluateSpelled_operator hs ht .multiply)
  · have e : ("-(" ++ s ++ ")").toList = '-' :: grouped s.toList := by simp [grouped]
    rw [IsAnswered, evaluate, e, spell_minus bs, evaluateSpelled_minus hs]

/-- A text with a value that no one would write: a numeral is cut in two by the parenthesis behind the
operand of its minus, and the operator at the end takes the second half. -/
lemma evaluate_cutNumeral : evaluate "2*-1.5.5+" = .ok 1.25 :=
  @evaluate_of_stages _ "2*(0-1.5).5+".toList
    [.numeral ['2'], .mark '*', .mark '(', .numeral ['0'], .mark '-', .numeral ['1', '.', '5'],
      .mark ')', .numeral ['.', '5'], .mark '+'] _
    (by cbv) (by cbv) (by decide +kernel)

/-- A malformed text that has a value keeps it in a group. -/
theorem evaluate_of_groups_cutNumeral :
    evaluate "2*-1.5.5+" = .ok 1.25 ∧ evaluate "7" = .ok 7 ∧
      evaluate ("(" ++ "2*-1.5.5+" ++ ")") = .ok 1.25 := by
  have hs := evaluate_cutNumeral
  have ht : evaluate "7" = .ok 7 :=
    @evaluate_of_stages _ ['7'] [.numeral ['7']] _ (by cbv) (by cbv) (by decide +kernel)
  exact ⟨hs, ht, (evaluate_of_groups hs ht).1⟩

end Expression

end Reckoner
