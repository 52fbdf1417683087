import Mathlib
import Reckoner.Proofs.Expression.Acceptance
import Reckoner.Proofs.Expression.Safety
import Reckoner.Proofs.Number.Plain

/-!
# Cutting any text into tokens

The relation `Cuts` says without any scanning what the lexemes of a text are: runs that cannot be made longer, and
single characters between them. Every text has exactly one such list, the one that `split` finds (`cuts_iff`).
What a lexeme is read as, and why one is not read, are relations too (`Writes`, `IsBad`).

In the other direction, tokens that are printed one behind the other are found again, as long as no printed text
runs into the next one (`exists_cuts_of_prints`).
-/

namespace Reckoner

namespace Lexeme

/-- The lexemes of a text from the left: runs of digits and points, runs of letters and digits that start
with a letter, each as long as it can be, and other characters. -/
inductive Cuts : List Char → List Lexeme → Prop where
  | nil :
    Cuts [] []
  | numeral {run rest l} :
    run ≠ [] →
    (∀ c ∈ run, Numeral.isPart c) →
    (∀ c ∈ rest.head?, Numeral.isPart c = false) →
    Cuts rest l →
    Cuts (run ++ rest) (.numeral run :: l)
  | name {c run rest l} :
    c.isAlpha →
    (∀ d ∈ run, d.isAlphanum) →
    (∀ d ∈ rest.head?, d.isAlphanum = false) →
    Cuts rest l →
    Cuts (c :: run ++ rest) (.name (c :: run) :: l)
  | mark {c rest l} :
    Numeral.isPart c = false →
    c.isAlpha = false →
    Cuts rest l →
    Cuts (c :: rest) (.mark c :: l)

/-- The token of a lexeme: a numeral with a finite value, a function name, an operator or a parenthesis. -/
inductive Writes : Lexeme → Token → Prop where
  | number {s n} :
    Numeral.Spells s n →
    n.value.isFinite →
    Writes (.numeral s) (.number n.value)
  | function {f : Function} :
    Writes (.name f.name.toList) (.function f)
  | operator {o : Operator} :
    Writes (.mark o.symbol) (.operator o)
  | leftParen :
    Writes (.mark '(') .leftParen
  | rightParen :
    Writes (.mark ')') .rightParen

/-- Why a lexeme has no token. -/
inductive IsBad : Lexeme → Cause → Prop where
  | secondPoint {s} :
    1 < s.count '.' →
    IsBad (.numeral s) .secondPoint
  | lonePoint :
    IsBad (.numeral ['.']) .lonePoint
  | tooBig {s n} :
    Numeral.Spells s n →
    ¬n.value.isFinite →
    IsBad (.numeral s) (.literalTooBig (String.ofList s))
  | unknown {s} :
    (∀ f : Function, f.name.toList ≠ s) →
    IsBad (.name s) (.unknownName (String.ofList s))
  | foreign {c} :
    (∀ o : Operator, o.symbol ≠ c) →
    c ≠ '(' →
    c ≠ ')' →
    IsBad (.mark c) (.invalidCharacter c)

/-- Every text has one list of lexemes. -/
theorem cuts_iff {s : List Char} {l : List Lexeme} : Cuts s l ↔ split s = l := by
  constructor
  · intro h
    induction h with
    | nil => simp [split]
    | @numeral run rest l hne hrun hrest _ ih =>
      obtain ⟨c, run, rfl⟩ := List.exists_cons_of_ne_nil hne
      obtain ⟨hc, hrun⟩ := List.forall_mem_cons.mp hrun
      rw [List.cons_append, split, if_pos hc, Text.takeWhile_append_eq hrun hrest,
        Text.dropWhile_append_eq hrun hrest, ih]
    | name hc hrun hrest _ ih => rw [split_name_append hc hrun hrest, ih]
    | mark hp ha _ ih => rw [split_mark_cons ha hp, ih]
  · rintro rfl
    fun_induction split s with
    | case1 => exact .nil
    | case2 c rest hc ih =>
      have hrun : ∀ d ∈ c :: rest.takeWhile Numeral.isPart, Numeral.isPart d :=
        List.forall_mem_cons.mpr ⟨hc, fun d hd => List.mem_takeWhile_imp hd⟩
      have h := Cuts.numeral (List.cons_ne_nil _ _) hrun Text.head?_dropWhile ih
      rwa [List.cons_append, List.takeWhile_append_dropWhile] at h
    | case3 c rest _ hc ih =>
      have hrun : ∀ d ∈ rest.takeWhile Char.isAlphanum, d.isAlphanum := fun d hd =>
        List.mem_takeWhile_imp hd
      have h := Cuts.name hc hrun Text.head?_dropWhile ih
      rwa [List.cons_append, List.takeWhile_append_dropWhile] at h
    | case4 c rest hp ha ih => exact .mark (by simpa using hp) (by simpa using ha) ih

/-- A lexeme is read as the token that it writes. -/
theorem read_eq_ok_iff {a : Lexeme} {t : Token} : a.read = .ok t ↔ Writes a t := by
  constructor
  · intro h
    cases a with
    | numeral s =>
      rw [read, readNumeral] at h
      split at h
      · cases h
      · split at h
        · cases h
        · next n hn =>
          split at h
          · next x hx =>
            cases h
            rw [Numeral.finite?] at hx
            split at hx
            · next hf =>
              cases hx
              exact .number (Numeral.ofChars?_eq_some_iff.mp hn) hf
            · cases hx
          · cases h
    | name s =>
      rw [read, readName] at h
      split at h
      · next f hf =>
        cases h
        have hs : s = f.name.toList := by rw [Function.name_of_ofName? hf, String.toList_ofList]
        rw [hs]
        exact .function
      · cases h
    | mark c =>
      rw [read, readMark] at h
      split at h
      · next o ho =>
        cases h
        rw [← Operator.symbol_of_ofChar? ho]
        exact .operator
      · split at h
        · next hc =>
          cases h
          rw [hc]
          exact .leftParen
        · split at h
          · next hc =>
            cases h
            rw [hc]
            exact .rightParen
          · cases h
  · intro h
    cases h with
    | @number s n hs hf =>
      have hn := Numeral.ofChars?_eq_some_iff.mpr hs
      have hc := Numeral.count_point_le hn
      rw [read, readNumeral, if_neg (by omega), hn]
      simp only [Numeral.finite?, if_pos hf]
    | function => exact Expression.read_function _
    | operator => exact Expression.read_operator _
    | leftParen => rfl
    | rightParen => rfl

/-- A lexeme of a text is not read exactly if it is bad. -/
theorem read_eq_error_iff {s : List Char} {a : Lexeme} {c : Cause} (ha : a.IsCut s) :
    a.read = .error c ↔ IsBad a c := by
  constructor
  · intro h
    cases a with
    | numeral l =>
      rw [read, readNumeral] at h
      split at h
      · next hc =>
        cases h
        exact .secondPoint hc
      · next hc =>
        obtain rfl | ⟨n, hn⟩ := Numeral.exists_spells ha.1 ha.2 (by omega)
        · cases h
          exact .lonePoint
        · rw [Numeral.ofChars?_eq_some_iff.mpr hn] at h
          by_cases hf : n.value.isFinite
          · simp only [Numeral.finite?, if_pos hf] at h
            cases h
          · simp only [Numeral.finite?, if_neg hf] at h
            cases h
            exact .tooBig hn hf
    | name l =>
      rw [read, readName] at h
      split at h
      · cases h
      · next hf =>
        cases h
        refine .unknown fun f e => ?_
        rw [← e, String.ofList_toList, Function.ofName?_name] at hf
        cases hf
    | mark d =>
      rw [read, readMark] at h
      split at h
      · cases h
      · next ho =>
        split at h
        · cases h
        · next hopen =>
          split at h
          · cases h
          · next hclose =>
            cases h
            refine .foreign (fun o e => ?_) hopen hclose
            rw [← e, Operator.ofChar?_symbol] at ho
            cases ho
  · intro h
    cases h with
    | secondPoint hc => rw [read, readNumeral, if_pos hc]
    | lonePoint => rfl
    | @tooBig s n hs hf =>
      have hn := Numeral.ofChars?_eq_some_iff.mpr hs
      have hc := Numeral.count_point_le hn
      rw [read, readNumeral, if_neg (by omega), hn]
      simp only [Numeral.finite?, if_neg hf]
    | @unknown s hf =>
      have hs : Function.ofName? (String.ofList s) = none :=
        Option.eq_none_iff_forall_ne_some.mpr fun f e =>
          hf f (by rw [Function.name_of_ofName? e, String.toList_ofList])
      rw [read, readName, hs]
    | @foreign d ho hopen hclose =>
      have hd : Operator.ofChar? d = none :=
        Option.eq_none_iff_forall_ne_some.mpr fun o e => ho o (Operator.symbol_of_ofChar? e)
      rw [read, readMark, hd]
      simp only [if_neg hopen, if_neg hclose]

/-- The code for each kind of lexeme that has no token. -/
lemma IsBad.code {a : Lexeme} {c : Cause} (h : IsBad a c) :
    c.code = "3008" ∧ (∃ s, a = numeral s ∧ 1 < s.count '.') ∨
      c.code = "3000" ∧ (a = numeral ['.'] ∨ ∃ d, a = mark d) ∨
      c.code = "3026" ∧ (∃ s n, a = numeral s ∧ Numeral.Spells s n ∧ ¬n.value.isFinite) ∨
      c.code = "2000" ∧ ∃ s, a = name s := by
  cases h with
  | secondPoint h => exact .inl ⟨rfl, _, rfl, h⟩
  | lonePoint => exact .inr (.inl ⟨rfl, .inl rfl⟩)
  | foreign => exact .inr (.inl ⟨rfl, .inr ⟨_, rfl⟩⟩)
  | tooBig hs hn => exact .inr (.inr (.inl ⟨rfl, _, _, rfl, hs, hn⟩))
  | unknown => exact .inr (.inr (.inr ⟨rfl, _, rfl⟩))

lemma IsBad.kind {a : Lexeme} {c : Cause} (h : IsBad a c) : c.kind = .lexing := by
  cases h <;> rfl

end Lexeme

namespace Token

open Lexeme (Cuts Writes IsBad)

/-- Whether a token is a function. -/
def isFunction : Token → Bool
  | function _ => true
  | _ => false

/-- A text that a token is printed as: a number in plain decimal notation, another token by its name. -/
inductive Prints : Token → List Char → Prop where
  | number {x s n} :
    Numeral.Spells s n →
    n.Denotes x →
    Prints (.number x) s
  | operator {o : Operator} :
    Prints (.operator o) [o.symbol]
  | function {f : Function} :
    Prints (.function f) f.name.toList
  | leftParen :
    Prints .leftParen ['(']
  | rightParen :
    Prints .rightParen [')']

/-- Printed tokens that may follow each other: no number follows a number, and no name and no number that
starts with a digit follows a name. -/
def Separable (p q : Token × List Char) : Prop :=
  (p.1.isNumber → q.1.isNumber = false) ∧
    (p.1.isFunction → q.1.isFunction = false ∧ (q.1.isNumber → ∀ c ∈ q.2.head?, c.isDigit = false))

/-- The tokens that can be printed: all but unknown texts and numbers that have a sign or are not finite. -/
def Printable : Token → Prop
  | number x => x.isFinite ∧ Number.isNegative x = false
  | unknown _ => False
  | _ => True

/-- A text is cut into tokens exactly if every lexeme writes one. -/
lemma tokenize_eq_ok_iff {s : List Char} {tokens : List Token} :
    tokenize s = .ok tokens ↔ List.Forall₂ Writes (Lexeme.split s) tokens := by
  rw [tokenize, Outcome.mapM_eq_ok]
  simp only [Lexeme.read_eq_ok_iff]

/-- A text is refused for its leftmost bad lexeme. -/
lemma tokenize_eq_error_iff {s : List Char} {c : Cause} :
    tokenize s = .error c ↔
      ∃ before a after, Lexeme.split s = before ++ a :: after ∧ (∀ b ∈ before, ∃ t, Writes b t) ∧
        IsBad a c := by
  rw [tokenize, Outcome.mapM_eq_error]
  simp only [Lexeme.read_eq_ok_iff]
  constructor
  · rintro ⟨before, a, after, e, hb, ha⟩
    have hcut := Lexeme.isCut_of_mem_split (e ▸ List.mem_append_right before List.mem_cons_self)
    exact ⟨before, a, after, e, hb, (Lexeme.read_eq_error_iff hcut).mp ha⟩
  · rintro ⟨before, a, after, e, hb, ha⟩
    have hcut := Lexeme.isCut_of_mem_split (e ▸ List.mem_append_right before List.mem_cons_self)
    exact ⟨before, a, after, e, hb, (Lexeme.read_eq_error_iff hcut).mpr ha⟩

/-- How a printed token begins: what is no number does not go on a numeral, and what is no name and no digit
does not go on a name. -/
lemma Prints.exists_cons {t : Token} {s : List Char} (h : Prints t s) :
    ∃ c r, s = c :: r ∧ (t.isNumber = false → Numeral.isPart c = false) ∧
      (t.isFunction = false → (t.isNumber → c.isDigit = false) → c.isAlphanum = false) := by
  cases h with
  | @number x s n hs hn =>
    obtain ⟨c, r, rfl⟩ := List.exists_cons_of_ne_nil hs.ne_nil
    refine ⟨c, r, rfl, fun hf => (by cases hf), fun _ hd => ?_⟩
    have hd := hd rfl
    have hp := hs.parts c List.mem_cons_self
    rw [Numeral.isPart, hd, Bool.false_or, decide_eq_true_iff] at hp
    rw [hp]
    rfl
  | @operator o => exact ⟨o.symbol, [], rfl, fun _ => by cases o <;> rfl, fun _ _ => by cases o <;> rfl⟩
  | @function f =>
    obtain ⟨c, r, e, ha, -⟩ := Chunk.exists_functionName f
    exact ⟨c, r, e, fun _ => by simpa using Lexeme.isPart_of_isAlpha ha, fun hf => (by cases hf)⟩
  | leftParen => exact ⟨'(', [], rfl, fun _ => rfl, fun _ _ => rfl⟩
  | rightParen => exact ⟨')', [], rfl, fun _ => rfl, fun _ _ => rfl⟩

/-- Printed tokens are cut apart again where they were put together. -/
theorem exists_cuts_of_prints {printed : List (Token × List Char)}
    (hp : ∀ p ∈ printed, Prints p.1 p.2) (hs : printed.IsChain Separable) :
    ∃ l, Cuts (printed.flatMap Prod.snd) l ∧ List.Forall₂ Writes l (printed.map Prod.fst) := by
  induction printed with
  | nil => exact ⟨[], .nil, .nil⟩
  | cons p printed ih =>
    obtain ⟨hpp, hp⟩ := List.forall_mem_cons.mp hp
    obtain ⟨hps, hs⟩ := List.isChain_cons.mp hs
    obtain ⟨l, hl, hw⟩ := ih hp hs
    rw [List.flatMap_cons, List.map_cons]
    -- The character behind the token is the first one of the next token.
    have next : ∀ c ∈ (printed.flatMap Prod.snd).head?, ∃ q ∈ printed.head?, c ∈ q.2.head? ∧
        (q.1.isNumber = false → Numeral.isPart c = false) ∧
        (q.1.isFunction = false → (q.1.isNumber → c.isDigit = false) → c.isAlphanum = false) := by
      intro c hc
      cases printed with
      | nil => cases hc
      | cons q printed =>
        obtain ⟨d, r, e, hnum, hname⟩ := (hp q List.mem_cons_self).exists_cons
        rw [List.flatMap_cons, e] at hc
        cases hc
        exact ⟨q, rfl, by rw [e]; rfl, hnum, hname⟩
    obtain ⟨t, s⟩ := p
    cases hpp with
    | @number x s n hn hd =>
      have hx : n.value = x := Numeral.value_of_denotes hd
      have hf : n.value.isFinite := by
        obtain ⟨r, hr, -⟩ := hd.nearest
        exact hx ▸ (Number.isFinite_iff x).mpr ⟨r, hr⟩
      have hrest : ∀ c ∈ (printed.flatMap Prod.snd).head?, Numeral.isPart c = false := by
        intro c hc
        obtain ⟨q, hq, -, hnum, -⟩ := next c hc
        exact hnum ((hps q hq).1 rfl)
      exact ⟨_, .numeral hn.ne_nil hn.parts hrest hl, .cons (hx ▸ .number hn hf) hw⟩
    | @operator o =>
      exact ⟨_, .mark (by cases o <;> rfl) (by cases o <;> rfl) hl, .cons .operator hw⟩
    | @function f =>
      have hrest : ∀ c ∈ (printed.flatMap Prod.snd).head?, c.isAlphanum = false := by
        intro c hc
        obtain ⟨q, hq, hcq, -, hname⟩ := next c hc
        obtain ⟨hfun, hdigit⟩ := (hps q hq).2 rfl
        exact hname hfun fun hnum => hdigit hnum c hcq
      obtain ⟨c, r, e, hc, hr⟩ := Chunk.exists_functionName f
      have hcut := Cuts.name hc hr hrest hl
      rw [← e] at hcut
      exact ⟨_, hcut, .cons .function hw⟩
    | leftParen => exact ⟨_, .mark rfl rfl hl, .cons .leftParen hw⟩
    | rightParen => exact ⟨_, .mark rfl rfl hl, .cons .rightParen hw⟩

/-- Every token that can be printed has a text. -/
lemma exists_prints {t : Token} (h : t.Printable) : ∃ s, Prints t s := by
  cases t with
  | number x =>
    obtain ⟨s, n, hs, hn⟩ := Numeral.exists_denotes h.1 h.2
    exact ⟨s, .number hs hn⟩
  | operator o => exact ⟨_, .operator⟩
  | function f => exact ⟨_, .function⟩
  | leftParen => exact ⟨_, .leftParen⟩
  | rightParen => exact ⟨_, .rightParen⟩
  | unknown text => exact h.elim

/-- Cutting into tokens. Every text has one list of lexemes, whose tokens in order are those of the text, and a
text with a bad lexeme is refused for the leftmost one. Printed tokens that may follow each other are found
again, and every token but an unknown text and a number with a sign can be printed. -/
theorem tokenize_exact :
    (∀ s, ∃ l, Cuts s l ∧ (∀ m, Cuts s m → m = l) ∧ l.flatMap Lexeme.text = s ∧
        ((∃ tokens, tokenize s = .ok tokens) ↔ ∀ a ∈ l, ∃ t, Writes a t) ∧
        (∀ tokens, tokenize s = .ok tokens ↔ List.Forall₂ Writes l tokens) ∧
        ∀ c, tokenize s = .error c ↔
          ∃ before a after, l = before ++ a :: after ∧ (∀ b ∈ before, ∃ t, Writes b t) ∧ IsBad a c) ∧
      (∀ a c, IsBad a c → c.kind = .lexing ∧
        (c.code = "3008" ∧ (∃ s, a = .numeral s ∧ 1 < s.count '.') ∨
          c.code = "3000" ∧ (a = .numeral ['.'] ∨ ∃ d, a = .mark d) ∨
          c.code = "3026" ∧ (∃ s n, a = .numeral s ∧ Numeral.Spells s n ∧ ¬n.value.isFinite) ∨
          c.code = "2000" ∧ ∃ s, a = .name s)) ∧
      (∀ printed : List (Token × List Char), (∀ p ∈ printed, Prints p.1 p.2) →
        printed.IsChain Separable →
        tokenize (printed.flatMap Prod.snd) = .ok (printed.map Prod.fst)) ∧
      ∀ t : Token, t.Printable → ∃ s, Prints t s := by
  refine ⟨fun s => ?_, fun a c h => ⟨h.kind, h.code⟩, fun printed hp hs => ?_, fun t => exists_prints⟩
  · refine ⟨Lexeme.split s, Lexeme.cuts_iff.mpr rfl, ?_, Lexeme.flatMap_text_split s, ?_, ?_, ?_⟩
    · intro m hm
      exact (Lexeme.cuts_iff.mp hm).symm
    · simp only [tokenize_eq_ok_iff]
      exact Outcome.exists_forall₂_iff
    · intro tokens
      exact tokenize_eq_ok_iff
    · intro c
      exact tokenize_eq_error_iff
  · obtain ⟨l, hl, hw⟩ := exists_cuts_of_prints hp hs
    rw [tokenize_eq_ok_iff, Lexeme.cuts_iff.mp hl]
    exact hw

end Token

end Reckoner
