import Mathlib
import Reckoner.Proofs.Expression.Order
import Reckoner.Proofs.Expression.Verdict

/-!
# Refusals

Every stage of evaluating has codes of its own: cutting into tokens, calling a function, applying an
operator, running a postfix list. The code for parentheses is none of these, and reordering gives it only
for tokens that are not balanced, so after the checks it is given for no text. It is therefore the code of
exactly the texts that are not balanced.
-/

namespace Reckoner

/-- The code of a function without a value. -/
lemma Function.code_of_apply {f : Function} {x : Float} {c : Cause} (h : f.apply x = .error c) :
    c.code = "2001" := by
  rw [apply] at h
  obtain h | ⟨y, -, h⟩ := Outcome.bind_eq_error.mp h
  · obtain ⟨u, -, rfl⟩ := Outcome.mapError_eq_error.mp h
    rfl
  · split at h
    · cases h
    · cases h
      rfl

lemma Operator.code_of_apply {o : Operator} {x y : Float} {c : Cause}
    (h : o.apply x y = .error c) : c.code ∈ ["3003", "3007"] := by
  rw [apply] at h
  obtain h | ⟨z, -, h⟩ := Outcome.bind_eq_error.mp h
  · cases o with
    | add => cases h
    | subtract => cases h
    | multiply => cases h
    | divide =>
      rw [compute] at h
      split at h
      · cases h
        exact List.mem_cons_self
      · cases h
    | power =>
      obtain ⟨u, -, rfl⟩ := Outcome.mapError_eq_error.mp h
      exact List.mem_cons_of_mem _ List.mem_cons_self
  · split at h
    · cases h
    · cases h
      exact List.mem_cons_of_mem _ List.mem_cons_self

namespace Lexeme

/-- The codes of a lexeme that cannot be read. -/
lemma code_of_read {x : Lexeme} {c : Cause} (h : x.read = .error c) :
    c.code ∈ ["2000", "3000", "3008", "3026"] := by
  cases x with
  | numeral s =>
    rw [read, readNumeral] at h
    split at h
    · cases h
      simp [Cause.code]
    · split at h
      · cases h
        simp [Cause.code]
      · split at h
        · cases h
        · cases h
          simp [Cause.code]
  | name s =>
    rw [read, readName] at h
    split at h
    · cases h
    · cases h
      simp [Cause.code]
  | mark a =>
    rw [read, readMark] at h
    split at h
    · cases h
    · split at h
      · cases h
      · split at h
        · cases h
        · cases h
          simp [Cause.code]

/-- A run of digits and points is read as no parenthesis. -/
lemma symbol_of_readNumeral {l : List Char} {t : Token} (h : readNumeral l = .ok t) :
    t.symbol = '0' := by
  rw [readNumeral] at h
  split at h
  · cases h
  · split at h
    · cases h
    · split at h
      · cases h
        rfl
      · cases h

lemma symbol_of_readName {l : List Char} {t : Token} (h : readName l = .ok t) :
    t.symbol = '0' := by
  rw [readName] at h
  split at h
  · cases h
    rfl
  · cases h

/-- A mark is read as the parenthesis that it is, if it is one. -/
lemma symbol_of_readMark {a : Char} {t : Token} (h : readMark a = .ok t) (d : Nat)
    (s : List Char) :
    Expression.depthAfter d (t.symbol :: s) = Expression.depthAfter d (a :: s) := by
  rw [readMark] at h
  split at h
  · next o ho =>
    cases h
    rw [← Operator.symbol_of_ofChar? ho]
    rfl
  · split at h
    · next ha =>
      cases h
      rw [ha]
      rfl
    · split at h
      · next ha =>
        cases h
        rw [ha]
        rfl
      · cases h

lemma no_parens {l : List Char} (h : ∀ c ∈ l, c.isAlphanum ∨ Numeral.isPart c) :
    ∀ c ∈ l, c ≠ '(' ∧ c ≠ ')' := by
  intro c hc
  constructor
  · rintro rfl
    exact absurd (h _ hc) (by decide)
  · rintro rfl
    exact absurd (h _ hc) (by decide)

/-- A lexeme that is read has the parentheses of its token. -/
lemma depthAfter_mapM_read {s : List Char} {tokens : List Token} (d : Nat)
    (h : (split s).mapM read = .ok tokens) :
    Expression.depthAfter d (tokens.map Token.symbol) = Expression.depthAfter d s := by
  -- A run of letters or digits is read as one token that is no parenthesis.
  have run {p : Char → Bool} (hp : ∀ c, p c → c.isAlphanum ∨ Numeral.isPart c) {c : Char}
      {rest : List Char} (hc : c.isAlphanum ∨ Numeral.isPart c) (d : Nat) :
      Expression.depthAfter d (c :: rest) = Expression.depthAfter d (rest.dropWhile p) := by
    have hn := no_parens (l := c :: rest.takeWhile p) (List.forall_mem_cons.mpr
      ⟨hc, fun x hx => hp x (List.mem_takeWhile_imp hx)⟩)
    have e : c :: rest = (c :: rest.takeWhile p) ++ rest.dropWhile p := by
      rw [List.cons_append, List.takeWhile_append_dropWhile]
    rw [e, Expression.depthAfter_append, Expression.depthAfter_of_no_parens hn]
    rfl
  rw [Outcome.mapM_eq_ok] at h
  fun_induction split s generalizing d tokens with
  | case1 =>
    cases h
    rfl
  | case2 c rest hc ih =>
    obtain ⟨t, l, ht, hl, rfl⟩ := List.forall₂_cons_left_iff.mp h
    rw [run (fun _ => .inr) (.inr hc), ← ih d hl, List.map_cons, symbol_of_readNumeral ht]
    exact Expression.depthAfter_other (by decide) (by decide) d _
  | case3 c rest _ hc ih =>
    obtain ⟨t, l, ht, hl, rfl⟩ := List.forall₂_cons_left_iff.mp h
    rw [run (fun _ => .inl) (.inl (by simp [Char.isAlphanum, hc])), ← ih d hl, List.map_cons,
      symbol_of_readName ht]
    exact Expression.depthAfter_other (by decide) (by decide) d _
  | case4 c rest _ _ ih =>
    obtain ⟨t, l, ht, hl, rfl⟩ := List.forall₂_cons_left_iff.mp h
    rw [List.map_cons, symbol_of_readMark ht, Expression.depthAfter_cons,
      Expression.depthAfter_cons]
    cases Expression.depthStep d c with
    | none => rfl
    | some e => exact ih e hl

end Lexeme

/-- The codes of a text that cannot be cut into tokens. -/
lemma Token.code_of_tokenize {s : List Char} {c : Cause} (h : tokenize s = .error c) :
    c.code ∈ ["2000", "3000", "3008", "3026"] := by
  obtain ⟨x, -, hx⟩ := Outcome.exists_of_mapM_eq_error h
  exact Lexeme.code_of_read hx

namespace Postfix

/-- The codes of a token that cannot be run. -/
lemma code_of_step {stack : List Float} {t : Token} {c : Cause} (h : step stack t = .error c) :
    c.code ∈ ["2001", "3003", "3004", "3006", "3007"] := by
  cases t with
  | number x => cases h
  | operator o =>
    match stack, h with
    | right :: left :: stack, h =>
      obtain h | ⟨x, -, h⟩ := Outcome.bind_eq_error.mp h
      · have := Operator.code_of_apply h
        simp only [List.mem_cons, List.not_mem_nil, or_false] at this ⊢
        rcases this with h | h <;> simp [h]
      · cases h
    | [x], h =>
      cases h
      simp [Cause.code]
    | [], h =>
      cases h
      simp [Cause.code]
  | function f =>
    match stack, h with
    | x :: stack, h =>
      obtain h | ⟨y, -, h⟩ := Outcome.bind_eq_error.mp h
      · simp [Function.code_of_apply h]
      · cases h
    | [], h =>
      cases h
      simp [Cause.code]
  | leftParen =>
    cases h
    simp [Cause.code]
  | rightParen =>
    cases h
    simp [Cause.code]
  | unknown text =>
    cases h
    simp [Cause.code]

lemma code_of_run {stack : List Float} {tokens : List Token} {c : Cause}
    (h : run stack tokens = .error c) : c.code ∈ ["2001", "3003", "3004", "3006", "3007"] := by
  induction tokens generalizing stack with
  | nil => cases h
  | cons t tokens ih =>
    rw [run_cons] at h
    obtain h | ⟨next, -, h⟩ := Outcome.bind_eq_error.mp h
    · exact code_of_step h
    · exact ih h

lemma code_of_evaluate {tokens : List Token} {c : Cause} (h : evaluate tokens = .error c) :
    c.code ∈ ["2001", "3003", "3004", "3006", "3007", "3011"] := by
  rw [evaluate] at h
  obtain h | ⟨stack, -, h⟩ := Outcome.bind_eq_error.mp h
  · have := code_of_run h
    simp only [List.mem_cons, List.not_mem_nil, or_false] at this ⊢
    rcases this with h | h | h | h | h <;> simp [h]
  · split at h
    · cases h
    · cases h
      simp [Cause.code]

end Postfix

namespace Expression

/-- A text whose tokens lack a parenthesis is not balanced. -/
lemma not_balanced_of_ofTokens {s : List Char} {tokens : List Token} {c : Cause}
    (ht : Token.tokenize s = .ok tokens) (h : Postfix.ofTokens tokens = .error c)
    (hc : c.code = "3002") : ¬Balanced s := by
  rw [balanced_iff, ← Lexeme.depthAfter_mapM_read 0 ht]
  exact Postfix.not_balanced_of_reorder h hc

/-- The verdict has the code for parentheses on the texts that are not balanced. -/
lemma verdict_eq_error_iff {s : List Char} :
    (∃ k, verdict s = .error (k, "3002")) ↔ ¬Balanced s := by
  unfold verdict
  constructor
  · rintro ⟨k, h⟩ hb
    rw [if_neg (not_not.mpr hb)] at h
    split at h
    · simp at h
    · split at h
      · simp at h
      · split at h <;> simp at h
  · intro hb
    have hs : s ≠ [] := by
      rintro rfl
      exact hb (by decide)
    exact ⟨.parsing, by rw [if_neg hs, if_pos hb]⟩

/-- Spelling out keeps a text balanced. -/
lemma balanced_spell_iff (raw : List Char) : Balanced (spell raw) ↔ Balanced (expand raw) := by
  rw [balanced_iff, balanced_iff, depthAfter_spell]

/-- A text is refused for its parentheses exactly if it is not balanced. -/
lemma evaluateSpelled_error_iff (raw : List Char) :
    (∃ c, evaluateSpelled (spell raw) = .error c ∧ c.code = "3002") ↔ ¬Balanced (expand raw) := by
  have hv := check_spell raw
  constructor
  · rintro ⟨c, h, hc⟩
    rw [evaluateSpelled] at h
    obtain h | ⟨-, -, h⟩ := Outcome.bind_eq_error.mp h
    · refine verdict_eq_error_iff.mp ⟨c.kind, ?_⟩
      rw [← hv, h, ← hc]
      rfl
    -- Behind the checks only reordering has this code, and only for a text that is not balanced.
    obtain h | ⟨tokens, ht, h⟩ := Outcome.bind_eq_error.mp h
    · have := Token.code_of_tokenize h
      rw [hc] at this
      exact absurd this (by decide)
    obtain h | ⟨l, -, h⟩ := Outcome.bind_eq_error.mp h
    · exact fun hb => not_balanced_of_ofTokens ht h hc ((balanced_spell_iff raw).mpr hb)
    · have := Postfix.code_of_evaluate h
      rw [hc] at this
      exact absurd this (by decide)
  · intro hb
    obtain ⟨k, hk⟩ := verdict_eq_error_iff.mpr hb
    rw [hk] at hv
    obtain ⟨c, h, hc⟩ := Outcome.mapError_eq_error.mp hv
    refine ⟨c, ?_, (Prod.mk.inj hc).2⟩
    rw [evaluateSpelled, h]
    rfl

/-- The checks come to a verdict on the text before it is spelled out, and evaluating refuses a text for
its parentheses exactly if that text is not balanced. -/
theorem check_decided_by_text (text : String) :
    (check (spell text.toList)).mapError (fun c => (c.kind, c.code)) =
        verdict (expand text.toList) ∧
      ((∃ failure, evaluate text = .error failure ∧ failure.cause.code = "3002") ↔
        ¬Balanced (expand text.toList)) := by
  refine ⟨check_spell text.toList, ?_⟩
  rw [← evaluateSpelled_error_iff]
  constructor
  · rintro ⟨failure, h, hc⟩
    obtain ⟨c, he, rfl⟩ := Outcome.mapError_eq_error.mp h
    exact ⟨c, he, hc⟩
  · rintro ⟨c, h, hc⟩
    exact ⟨⟨c, some text⟩, Outcome.mapError_eq_error.mpr ⟨c, h, rfl⟩, hc⟩

end Expression

end Reckoner
