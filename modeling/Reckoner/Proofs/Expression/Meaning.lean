import Mathlib
import Reckoner.Proofs.Expression.Alias
import Reckoner.Proofs.Expression.Explicit

/-!
# The meaning of expressions

Every sentence of the language has the value of its tree. The stages meet the derivation one after the
other: its lexemes are the chunks of the text; with constants replaced and the signs of products written
they are an explicit expression (`explicit_of_derives`); the pass for unary minus makes a list in infix
order of that, which passes the checks and is reordered and run as its tree says
(`spelled_of_derives`). Blanks and display symbols are gone before (`expand_of_displays`).
-/

namespace Reckoner

open Chunk (mark name number outline)

/-- The chunk that a lexeme is. -/
def Lexeme.toChunk : Lexeme → Chunk
  | numeral s => .number s
  | name s => .name s
  | mark c => .mark c

lemma Chunk.toChunk_toLexeme (k : Chunk) : k.toLexeme.toChunk = k := by
  cases k <;> rfl

/-- Where no numeral has a second point, the lexemes of a text are its chunks. -/
lemma Chunk.map_toChunk_split {s : List Char}
    (h : ∀ d, .numeral d ∈ Lexeme.split s → d.count '.' ≤ 1) :
    (Lexeme.split s).map Lexeme.toChunk = split s := by
  have hc := canonical_split s
  have ha : Apart (split s) := (apart_iff hc).mpr (by rwa [join_split])
  have hl := split_join_lexemes hc
  rw [join_split, ha.lexemes] at hl
  rw [hl, List.map_map]
  exact List.map_id'' toChunk_toLexeme _

namespace Expression

/-- The chunks of a list with constants replaced. -/
def replacement (l : List Lexeme) : List Chunk :=
  l.flatMap fun a => a.toChunk.replaceAll

/-- The chunks of a list with constants replaced and the signs of products written. -/
def signs (l : List Lexeme) : List Chunk :=
  insertTimes (replacement l)

/-- The chunks before the last stage come from the lexemes, where no numeral has a second point. -/
lemma signed_eq_signs {s : List Char} (h : ∀ d, .numeral d ∈ Lexeme.split s → d.count '.' ≤ 1) :
    Chunk.signed s = signs (Lexeme.split s) := by
  rw [Chunk.signed, Chunk.replaced, ← Chunk.map_toChunk_split h, List.flatMap_map]
  rfl

lemma exists_constant {a : Lexeme} (h : a.isConstant) :
    ∃ k : Constant, a = .name k.name.toList := by
  cases a with
  | name s =>
    obtain ⟨k, -, hk⟩ := List.any_eq_true.mp h
    exact ⟨k, congrArg _ (by simpa using hk)⟩
  | numeral s => cases h
  | mark c => cases h

lemma replaceAll_constantName (k : Constant) :
    (name k.name.toList).replaceAll = Chunk.valueGroup k := by
  cases k <;> decide

lemma replacement_constant_cons (k : Constant) (l : List Lexeme) :
    replacement (.name k.name.toList :: l) = Chunk.valueGroup k ++ replacement l := by
  rw [replacement, List.flatMap_cons, Lexeme.toChunk, replaceAll_constantName]
  rfl

lemma replacement_function_cons (f : Function) (l : List Lexeme) :
    replacement (.name f.name.toList :: l) = name f.name.toList :: replacement l := by
  rw [replacement, List.flatMap_cons, Lexeme.toChunk, Chunk.replaceAll_functionName]
  rfl

/-- A name is left alone, or it ends with the name of a constant that is replaced. -/
lemma replaceAll_name_cases (s : List Char) :
    (name s).replaceAll = [name s] ∨
      (∃ k, (name s).replaceAll = Chunk.valueGroup k ∧ s = k.name.toList) ∨
        ∃ r k, (name s).replaceAll = name r :: Chunk.valueGroup k ∧ s = r ++ k.name.toList := by
  rw [Chunk.replaceAll]
  split
  · next k hk =>
    have hs := List.rdropWhile_append_rtakeWhile (p := Char.isAlpha) (l := s)
    have hk := List.find?_some hk
    rw [decide_eq_true_eq] at hk
    rw [hk] at hs
    unfold Chunk.stem
    split
    · next e =>
      rw [e] at hs
      exact .inr (.inl ⟨k, rfl, hs.symm⟩)
    · next c l e =>
      rw [e] at hs
      exact .inr (.inr ⟨c :: l, k, rfl, hs.symm⟩)
  · exact .inl rfl

/-- What replaces a name begins with a name or a group. -/
lemma exists_replaceAll_name (s : List Char) :
    ∃ y r, (name s).replaceAll = y :: r ∧ (y = mark '(' ∨ y.isName) := by
  obtain h | ⟨k, h, -⟩ | ⟨r, k, h, -⟩ := replaceAll_name_cases s
  · exact ⟨_, _, h, .inr rfl⟩
  · exact ⟨_, _, h, .inl rfl⟩
  · exact ⟨_, _, h, .inr rfl⟩

/-- Where the grammar lets a sign be left out, the chunks on both sides are a product. -/
lemma exists_juxtaposition {a b : Lexeme} (h : a.Juxtaposable b) :
    ∃ l x y r, a.toChunk.replaceAll = l ++ [x] ∧ b.toChunk.replaceAll = y :: r ∧
      isJuxtaposition x y := by
  have close (ha : a.isConstant ∨ a = .mark ')') :
      ∃ l, a.toChunk.replaceAll = l ++ [mark ')'] := by
    obtain ha | rfl := ha
    · obtain ⟨k, rfl⟩ := exists_constant ha
      exact ⟨[mark '(', number _], replaceAll_constantName k⟩
    · exact ⟨[], rfl⟩
  have left (ha : (∃ s, a = .numeral s) ∨ a.isConstant ∨ a = .mark ')') :
      ∃ l x, a.toChunk.replaceAll = l ++ [x] ∧ (x.isNumber ∨ x = mark ')') := by
    obtain ⟨s, rfl⟩ | ha := ha
    · exact ⟨[], number s, rfl, .inl rfl⟩
    · obtain ⟨l, hl⟩ := close ha
      exact ⟨l, _, hl, .inr rfl⟩
  have right (hb : b = .mark '(' ∨ ∃ s, b = .name s) :
      ∃ y r, b.toChunk.replaceAll = y :: r ∧ (y = mark '(' ∨ y.isName) := by
    obtain rfl | ⟨s, rfl⟩ := hb
    · exact ⟨_, _, rfl, .inl rfl⟩
    · exact exists_replaceAll_name s
  obtain ⟨ha, hb⟩ | ⟨ha, s, rfl⟩ := h
  · obtain ⟨l, x, hl, hx⟩ := left ha
    obtain ⟨y, r, hr, hy⟩ := right hb
    refine ⟨l, x, y, r, hl, hr, ?_⟩
    rcases hx with hx | hx <;> rcases hy with hy | hy <;> simp [isJuxtaposition, hx, hy]
  · obtain ⟨l, hl⟩ := close ha
    exact ⟨l, _, number s, [], hl, rfl, rfl⟩

/-- The sign of a product is left out where the grammar allows it. -/
lemma signs_append_of_juxtaposable {l m : List Lexeme} {a b : Lexeme} (ha : a ∈ l.getLast?)
    (hb : b ∈ m.head?) (h : a.Juxtaposable b) :
    signs (l ++ m) = signs l ++ mark Operator.multiply.symbol :: signs m := by
  obtain ⟨l, rfl⟩ := List.getLast?_eq_some_iff.mp ha
  obtain ⟨m, rfl⟩ := List.head?_eq_some_iff.mp hb
  obtain ⟨u, x, y, v, hu, hv, hj⟩ := exists_juxtaposition h
  have e := Chunk.insertTimes_append (l.flatMap (·.toChunk.replaceAll) ++ u) x y
    (v ++ m.flatMap (·.toChunk.replaceAll))
  rw [if_pos hj] at e
  simpa [signs, replacement, hu, hv, Operator.symbol] using e

/-- The signs before and after an operator are not left out. -/
lemma signs_append_operator (o : Operator) (l m : List Lexeme) :
    signs (l ++ .mark o.symbol :: m) = signs l ++ mark o.symbol :: signs m := by
  rw [signs, replacement, List.flatMap_append]
  exact (Chunk.insertTimes_append_mark o.symbol_ne.1 _ _).trans
    (congrArg _ (Chunk.insertTimes_mark_cons o.symbol_ne.2 _))

lemma signs_minus (l : List Lexeme) : signs (.mark '-' :: l) = mark '-' :: signs l :=
  Chunk.insertTimes_mark_cons (by decide) _

lemma signs_group (l : List Lexeme) :
    signs (.mark '(' :: (l ++ [.mark ')'])) = mark '(' :: (signs l ++ [mark ')']) := by
  have h : signs (l ++ [.mark ')']) = signs l ++ [mark ')'] := by
    rw [signs, replacement, List.flatMap_append]
    exact Chunk.insertTimes_append_mark (by decide) _ _
  rw [← h]
  exact Chunk.insertTimes_mark_cons (by decide) _

lemma signs_call (f : Function) (l : List Lexeme) :
    signs (.name f.name.toList :: .mark '(' :: (l ++ [.mark ')'])) =
      name f.name.toList :: mark '(' :: (signs l ++ [mark ')']) := by
  rw [← signs_group, signs, replacement_function_cons]
  rfl

/-- A numeral is read as its value if that is finite. -/
lemma read_numeral {s : List Char} {n : Numeral} (hn : Numeral.ofChars? s = some n)
    (hf : n.value.isFinite) : Lexeme.read (.numeral s) = .ok (.number n.value) := by
  have hc := Numeral.count_point_le hn
  have hv : n.finite? = some n.value := if_pos hf
  rw [Lexeme.read, Lexeme.readNumeral, if_neg (Nat.not_lt.mpr hc), hn]
  simp only [hv]

lemma read_constant (k : Constant) :
    Lexeme.read (.numeral (k.numeral.whole ++ '.' :: k.numeral.fraction)) =
      .ok (.number k.value) := by
  have hn : Numeral.ofChars? (k.numeral.whole ++ '.' :: k.numeral.fraction) = some k.numeral := by
    cases k <;> decide
  have hf : k.numeral.value.isFinite := by
    cases k <;> decide +kernel
  rw [← k.numeral_value]
  exact read_numeral hn hf

lemma explicit_constant (k : Constant) :
    Explicit .atom (signs [.name k.name.toList]) (.number k.value) := by
  have hs : signs [.name k.name.toList] = Chunk.valueGroup k := by
    rw [signs, replacement_constant_cons]
    rfl
  rw [hs]
  exact .group (.sum (.first (.atom (.number (read_constant k)))))

/-- With constants replaced and the signs of products written, an expression is explicit. -/
theorem explicit_of_derives {c : Category} {l : List Lexeme} {t : Tree} (h : Derives c l t)
    (hf : t.HasFiniteLiterals) : Explicit c (signs l) t := by
  induction h with
  | number hn => exact .number (read_numeral hn hf)
  | @constant k => exact explicit_constant k
  | @call f l t _ ih => rw [signs_call]; exact .call (ih hf)
  | group _ ih => rw [signs_group]; exact .group (ih hf)
  | atom _ ih => exact .atom (ih hf)
  | power _ _ ihl ihm =>
    have e := signs_append_operator .power
    rw [Operator.symbol] at e
    rw [e]
    exact .power (ihl hf.1) (ihm hf.2)
  | factor _ ih => exact .factor (ih hf)
  | negative _ ih => rw [signs_minus]; exact .negative (ih hf.2)
  | first _ ih => exact .first (ih hf)
  | signedFirst _ ih => exact .signedFirst (ih hf)
  | @times _ o _ _ _ _ ho _ _ ihl ihm =>
    rw [signs_append_operator]
    exact .times ho (ihl hf.1) (ihm hf.2)
  | juxtaposed _ _ ha hb hj ihl ihm =>
    -- Two operands side by side are a product like any other once its sign is written.
    rw [signs_append_of_juxtaposable ha hb hj]
    exact .times (.inl rfl) (ihl hf.1) (.factor (ihm hf.2))
  | sum _ ih => exact .sum (ih hf)
  | negated _ ih => rw [signs_minus]; exact .negated (ih hf.2)
  | @plus o _ _ _ _ ho _ _ ihl ihm =>
    rw [signs_append_operator]
    exact .plus ho (ihl hf.1) (ihm hf.2)

/-- The text of chunks whose tokens are in infix order passes the checks. -/
lemma passes_of_reads {l : List Chunk} {tokens : List Token} {t : Tree}
    (hl : ∀ k ∈ l, k.Proper) (hr : List.Forall₂ Chunk.Reads l tokens) (h : Infix 1 tokens t) :
    Passes (Chunk.join l) := by
  have ha := (Chunk.alike_outline hl).trans (Chunk.alike_of_reads hr)
  refine ⟨fun e => h.ne_nil (List.map_eq_nil_iff.mp (ha.nil.mp e)), fun d => ?_, fun c hc => ?_, ?_⟩
  · rw [ha.depth, h.depthAfter_symbol]
  · by_contra hn
    rw [Bool.not_eq_true] at hn
    obtain ⟨k, hk, rfl⟩ := List.mem_map.mp ((ha.foreign c hn).mp hc)
    rw [h.isAllowed_symbol k hk] at hn
    cases hn
  · have e := h.hasRunAfter_symbol false []
    rw [List.append_nil] at e
    rw [ha.run, e]
    rfl

/-- The text of chunks is cut into the tokens that they are read as. -/
lemma tokenize_of_reads {l : List Chunk} {tokens : List Token} (hl : Chunk.Canonical l)
    (ha : Chunk.Apart l) (hr : List.Forall₂ Chunk.Reads l tokens) :
    Token.tokenize (Chunk.join l) = .ok tokens := by
  rw [Token.tokenize, Chunk.split_join_lexemes hl, ha.lexemes, Outcome.mapM_eq_ok,
    List.forall₂_map_left_iff]
  exact hr

/-- What a sentence spells out: a list in infix order with its tree. -/
theorem spelled_of_derives {s : List Char} {t : Tree} (h : Derives .sum (Lexeme.split s) t)
    (hf : t.HasFiniteLiterals) :
    ∃ tokens, Infix 1 tokens t ∧
      List.Forall₂ Chunk.Reads (subtractFromZero none [] (Chunk.signed s)) tokens := by
  have hs : Chunk.signed s = signs (Lexeme.split s) := signed_eq_signs fun d hm => by
    obtain ⟨n, hn⟩ := h.isWord _ hm
    exact Numeral.count_point_le hn
  obtain ⟨r, tokens, hr, ht, hb⟩ := (explicit_of_derives h hf).exists_becomes
  -- The whole text is a block at the start, with nothing behind it and no countdown.
  have e := hb none [] [] (.inl rfl) (by simp [Category.Follows]) (by simp)
  have e' : subtractFromZero none [] (Chunk.signed s) = r := by
    rw [hs]
    simpa [closings, advance, subtractFromZero] using e
  exact ⟨tokens, ht, e' ▸ hr⟩

/-- Operators stand in a sentence as they should. -/
lemma tidy_of_derives {s : List Char} {t : Tree} (h : Derives .sum (Lexeme.split s) t)
    (hf : t.HasFiniteLiterals) : Tidy false s := by
  obtain ⟨tokens, ht, hr⟩ := spelled_of_derives h hf
  have hrun : hasRunAfter false (outline (subtractFromZero none [] (Chunk.signed s))) = false := by
    have e := ht.hasRunAfter_symbol false []
    rw [List.append_nil] at e
    rw [(Chunk.alike_of_reads hr).run, e]
    rfl
  have hs : Tidy false (outline (Chunk.signed s)) :=
    (@hasRunAfter_subtractFromZero 0 none [] _ (Chunk.canonical_signed s).proper (by simp)).mp hrun
  exact ((Chunk.alike_signed s).tidy false).mp hs

/-- Every sentence with finite numbers has the value of its tree, however it is displayed. -/
theorem evaluate_of_derives {text : String} {s : List Char} {t : Tree}
    (hd : Displays (Text.dropBlanks text.toList) s) (h : Derives .sum (Lexeme.split s) t)
    (hf : t.HasFiniteLiterals) : IsAnswered text t.evaluate := by
  obtain ⟨tokens, ht, hr⟩ := spelled_of_derives h hf
  have hc : Chunk.Canonical (subtractFromZero none [] (Chunk.signed s)) :=
    canonical_subtractFromZero (Chunk.canonical_signed s)
  have hs : spell text.toList = Chunk.join (subtractFromZero none [] (Chunk.signed s)) := by
    rw [spell, Chunk.spellChunks_eq, expand_of_displays hd (tidy_of_derives h hf)]
  have ha := Chunk.apart_of_reads hr ht.isChain
  have he : evaluateSpelled (spell text.toList) = t.evaluate := by
    rw [hs, evaluateSpelled_eq (passes_of_reads hc.proper hr ht) (tokenize_of_reads hc ha hr)
      (Postfix.reorder_eq_postorder ht), Postfix.evaluate_postorder]
  rw [IsAnswered, evaluate, he]

/-- A text with blanks and a display symbol, whose second factor has a sign. -/
theorem evaluate_of_derives_display : evaluate "2 × -(1 + 3)" = .ok (-8) := by
  have hd : Displays (Text.dropBlanks "2 × -(1 + 3)".toList) "2*-(1+3)".toList := by
    rw [show Text.dropBlanks "2 × -(1 + 3)".toList = "2×-(1+3)".toList by decide]
    exact .symbol (.symbol (.symbol (.symbol (.symbol (.symbol (.symbol (.symbol .nil)))))))
  have hs : Lexeme.split "2*-(1+3)".toList = [.numeral ['2'], .mark '*', .mark '-', .mark '(',
      .numeral ['1'], .mark '+', .numeral ['3'], .mark ')'] := by cbv
  have number (c : Char) (h : Numeral.ofChars? [c] = some ⟨[c], []⟩) :
      Derives .power [.numeral [c]] (.number (Numeral.value ⟨[c], []⟩)) := .atom (.number h)
  have group : Derives .sum [.numeral ['1'], .mark '+', .numeral ['3']] _ :=
    .plus (.inl rfl) (.sum (.first (number '1' rfl))) (.signedFirst (.factor (number '3' rfl)))
  have h : Derives .sum [.numeral ['2'], .mark '*', .mark '-', .mark '(', .numeral ['1'],
      .mark '+', .numeral ['3'], .mark ')'] _ :=
    .sum (.times (.inl rfl) (.first (number '2' rfl)) (.negative (.atom (.group group))))
  rw [← hs] at h
  have ha := evaluate_of_derives hd h (by decide +kernel)
  rw [ha, Outcome.mapError_eq_ok]
  exact Outcome.toOption_eq_some.mp (by decide +kernel)

end Expression

end Reckoner
