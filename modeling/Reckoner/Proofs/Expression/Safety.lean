import Mathlib
import Reckoner.Proofs.Expression.Refusal
import Reckoner.Proofs.Expression.Tally
import Reckoner.Proofs.Number.Numeral

/-!
# Safety

Evaluating a text ends in a finite double or in a failure of the text with one of thirteen codes. What each
stage leaves to the next is carried along: the checks leave only characters that have a reading
(`readMark_of_isAllowed`), cutting into tokens leaves finite numbers and known words (`sound_of_tokenize`),
reordering leaves the same tokens without parentheses, and running keeps a stack of finite values
(`run_safe`).

From the same facts follows which branches no text reaches. For reordering they are said of the states it
comes to: `read` is what it does with one token, `Reaches` are the states, and `Owned` is the invariant that
a waiting function has its group directly above it or next in the text.
-/

namespace Reckoner

namespace Lexeme

/-- The lexemes of a text: what kind of characters they are made of. -/
def IsCut (s : List Char) : Lexeme → Prop
  | numeral l => l ≠ [] ∧ ∀ c ∈ l, Numeral.isPart c
  | name l => ∀ c ∈ l, c.isAlphanum
  | mark c => c ∈ s ∧ c.isAlpha = false ∧ Numeral.isPart c = false

lemma IsCut.mono {s t : List Char} {x : Lexeme} (h : x.IsCut s) (hst : s ⊆ t) : x.IsCut t := by
  cases x with
  | numeral l => exact h
  | name l => exact h
  | mark c => exact ⟨hst h.1, h.2⟩

lemma isCut_of_mem_split {s : List Char} {x : Lexeme} (h : x ∈ split s) : x.IsCut s := by
  fun_induction split s with
  | case1 => cases h
  | case2 c rest hc ih =>
    rcases List.mem_cons.mp h with rfl | h
    · refine ⟨List.cons_ne_nil _ _, ?_⟩
      intro d hd
      rcases List.mem_cons.mp hd with rfl | hd
      · exact hc
      · exact List.mem_takeWhile_imp hd
    · apply (ih h).mono
      exact fun d hd => List.mem_cons_of_mem c ((List.dropWhile_sublist _).subset hd)
  | case3 c rest _ hc ih =>
    rcases List.mem_cons.mp h with rfl | h
    · intro d hd
      rcases List.mem_cons.mp hd with rfl | hd
      · simp [Char.isAlphanum, hc]
      · exact List.mem_takeWhile_imp hd
    · apply (ih h).mono
      exact fun d hd => List.mem_cons_of_mem c ((List.dropWhile_sublist _).subset hd)
  | case4 c rest hp ha ih =>
    rcases List.mem_cons.mp h with rfl | h
    · exact ⟨List.mem_cons_self, by simpa using ha, by simpa using hp⟩
    · apply (ih h).mono
      exact fun d hd => List.mem_cons_of_mem c hd

/-- A mark that an expression may have is an operator or a parenthesis. -/
lemma readMark_of_isAllowed {c : Char} (h : Expression.isAllowed c) (ha : c.isAlpha = false)
    (hp : Numeral.isPart c = false) (d : Char) : readMark c ≠ .error (.invalidCharacter d) := by
  simp only [Numeral.isPart, Bool.or_eq_false_iff, decide_eq_false_iff_not] at hp
  obtain ⟨hd, hp⟩ := hp
  simp only [Expression.isAllowed, Char.isAlphanum, ha, hd, hp, Expression.isOperatorChar,
    Bool.or_self, Bool.false_or, decide_false, Bool.or_false, Bool.or_eq_true,
    decide_eq_true_eq] at h
  intro hr
  rw [readMark] at hr
  rcases h with (h | h) | h
  · obtain ⟨o, ho⟩ := Option.isSome_iff_exists.mp h
    rw [ho] at hr
    cases hr
  · subst h
    cases hr
  · subst h
    cases hr

end Lexeme

namespace Token

/-- A token that can be run: its number is finite, its word is known. -/
def Sound : Token → Prop
  | number x => x.isFinite
  | unknown _ => False
  | _ => True

lemma isFinite_of_finite? {n : Numeral} {x : Float} (h : n.finite? = some x) : x.isFinite := by
  rw [Numeral.finite?] at h
  split at h
  · next hf =>
    cases h
    exact hf
  · cases h

/-- A lexeme is read as a token that can be run, or it is refused as none. -/
lemma read_safe (x : Lexeme) :
    (∃ t, x.read = .ok t ∧ t.Sound) ∨ ∃ c, x.read = .error c ∧ c.kind = .lexing := by
  cases x with
  | numeral s =>
    rw [Lexeme.read, Lexeme.readNumeral]
    split
    · exact .inr ⟨_, rfl, rfl⟩
    · split
      · exact .inr ⟨_, rfl, rfl⟩
      · split
        · next x hx => exact .inl ⟨_, rfl, isFinite_of_finite? hx⟩
        · exact .inr ⟨_, rfl, rfl⟩
  | name s =>
    rw [Lexeme.read, Lexeme.readName]
    split
    · exact .inl ⟨_, rfl, trivial⟩
    · exact .inr ⟨_, rfl, rfl⟩
  | mark c =>
    rw [Lexeme.read, Lexeme.readMark]
    split
    · exact .inl ⟨_, rfl, trivial⟩
    · split
      · exact .inl ⟨_, rfl, trivial⟩
      · split
        · exact .inl ⟨_, rfl, trivial⟩
        · exact .inr ⟨_, rfl, rfl⟩

lemma sound_of_read {x : Lexeme} {t : Token} (h : x.read = .ok t) : t.Sound := by
  obtain ⟨u, hu, hs⟩ | ⟨c, hc, -⟩ := read_safe x
  · rw [hu] at h
    cases h
    exact hs
  · rw [hc] at h
    cases h

lemma kind_of_read {x : Lexeme} {c : Cause} (h : x.read = .error c) : c.kind = .lexing := by
  obtain ⟨t, ht, -⟩ | ⟨d, hd, hk⟩ := read_safe x
  · rw [ht] at h
    cases h
  · rw [hd] at h
    cases h
    exact hk

lemma sound_of_tokenize {s : List Char} {tokens : List Token} (h : tokenize s = .ok tokens) :
    ∀ t ∈ tokens, t.Sound := by
  rw [tokenize, Outcome.mapM_eq_ok] at h
  generalize Lexeme.split s = l at h
  induction h with
  | nil => simp
  | cons hx _ ih => exact List.forall_mem_cons.mpr ⟨sound_of_read hx, ih⟩

end Token

namespace Postfix

open Waiting (group)

/-- What one token puts out, and what waits after it. -/
def read (stack : List Waiting) (token : Token) (rest : List Token) :
    Except Cause (List Token × List Waiting) :=
  match token with
  | .number x => .ok ([.number x], stack)
  | .function f =>
    if opensGroup rest then .ok ([], .function f :: stack)
    else .error (.functionWithoutGroup f.name)
  | .leftParen => .ok ([], group :: stack)
  | .rightParen =>
    match stack.dropWhile (· ≠ group) with
    | [] => .error .missingOpen
    | _ :: below =>
      .ok ((stack.takeWhile (· ≠ group)).map Waiting.token ++ (ownerOfGroup below).1,
        (ownerOfGroup below).2)
  | .operator o =>
    .ok ((stack.takeWhile (·.yieldsTo o)).map Waiting.token,
      .operator o :: stack.dropWhile (·.yieldsTo o))
  | .unknown text => .error (.unexpectedToken text)

/-- Reordering reads one token and goes on with what waits after it. -/
theorem reorder_cons (stack : List Waiting) (token : Token) (rest : List Token) :
    reorder stack (token :: rest) =
      read stack token rest >>= fun r =>
        reorder r.2 rest >>= fun l => .ok (r.1 ++ l) := by
  have plain (m : List Waiting) :
      (reorder m rest >>= fun l => Except.ok ([] ++ l)) = reorder m rest := by
    cases reorder m rest with
    | error c => rfl
    | ok l => rfl
  cases token with
  | number x => rfl
  | operator o => rfl
  | function f =>
    rw [reorder_function, read]
    split
    · exact (plain _).symm
    · rfl
  | leftParen => exact (plain _).symm
  | rightParen =>
    rw [reorder, read]
    cases stack.dropWhile (· ≠ group) with
    | nil => rfl
    | cons w below => rfl
  | unknown text => rfl

/-- The states that reordering comes to: what waits, and the tokens still to be read. -/
inductive Reaches (tokens : List Token) : List Waiting → List Token → Prop
  | start : Reaches tokens [] tokens
  | next {stack below : List Waiting} {token : Token} {rest out : List Token} :
      Reaches tokens stack (token :: rest) → read stack token rest = .ok (out, below) →
        Reaches tokens below rest

/-- Every waiting function has its group: directly above it, or next in the text if it is on top. -/
structure Owned (stack : List Waiting) (rest : List Token) : Prop where
  top : ∀ f, .function f ∈ stack.head? → opensGroup rest
  chain : stack.IsChain fun above below => (∃ f, below = .function f) → above = group

/-- Without a function on top, every token may come next. -/
lemma Owned.of_top {stack : List Waiting} {rest : List Token}
    (h : stack.IsChain fun above below => (∃ f, below = .function f) → above = group)
    (ht : ∀ f, .function f ∉ stack.head?) : Owned stack rest :=
  ⟨fun f hf => absurd hf (ht f), h⟩

lemma Owned.top_of_not_opensGroup {stack : List Waiting} {rest : List Token}
    (h : Owned stack rest) (hr : opensGroup rest = false) (f : Function) :
    .function f ∉ stack.head? := by
  intro hf
  have := h.top f hf
  rw [hr] at this
  cases this

/-- A group that is closed takes its owner with it. -/
lemma Owned.of_ownerOfGroup {stack : List Waiting} {rest : List Token}
    (h : stack.IsChain fun above below => (∃ f, below = .function f) → above = group) :
    Owned (ownerOfGroup stack).2 rest := by
  cases stack with
  | nil => exact .of_top .nil (by simp)
  | cons w stack =>
    cases w with
    | operator o => exact .of_top h (by simp)
    | group => exact .of_top h (by simp [ownerOfGroup])
    | function f =>
      rw [ownerOfGroup_function]
      refine .of_top h.tail ?_
      intro g hg
      cases stack with
      | nil => cases hg
      | cons v stack =>
        cases hg
        cases (List.isChain_cons_cons.mp h).1 ⟨g, rfl⟩

/-- One token keeps the owners of groups in place. -/
theorem Owned.read {stack below : List Waiting} {token : Token} {rest out : List Token}
    (h : Owned stack (token :: rest)) (hr : read stack token rest = .ok (out, below)) :
    Owned below rest := by
  cases token with
  | number x =>
    cases hr
    exact .of_top h.chain (h.top_of_not_opensGroup rfl)
  | operator o =>
    cases hr
    have hd := h.chain.suffix (List.dropWhile_suffix (·.yieldsTo o))
    refine .of_top (List.isChain_cons.mpr ⟨?_, hd⟩) (by simp)
    rintro w hw ⟨f, rfl⟩
    -- A function lets every operator go before it, so it is none of those that stay.
    have := List.head?_dropWhile_not (·.yieldsTo o) stack
    rw [hw] at this
    cases this
  | function f =>
    rw [Postfix.read] at hr
    split at hr
    · next ho =>
      cases hr
      refine ⟨fun _ _ => ho, List.isChain_cons.mpr ⟨?_, h.chain⟩⟩
      rintro w hw ⟨g, rfl⟩
      exact absurd hw (h.top_of_not_opensGroup rfl g)
    · cases hr
  | leftParen =>
    cases hr
    exact .of_top (List.isChain_cons.mpr ⟨fun _ _ _ => rfl, h.chain⟩) (by simp)
  | rightParen =>
    cases hd : stack.dropWhile (· ≠ group) with
    | nil =>
      rw [Postfix.read, hd] at hr
      cases hr
    | cons w outer =>
      have hchain := h.chain.suffix (List.dropWhile_suffix (· ≠ group))
      rw [hd] at hchain
      rw [Postfix.read, hd] at hr
      cases hr
      exact .of_ownerOfGroup hchain.tail
  | unknown text => cases hr

/-- No function waits above the innermost group unless a group is opened next: it would need a group above
it. -/
lemma Owned.notMem_takeWhile {stack : List Waiting} {rest : List Token} (h : Owned stack rest)
    (hr : opensGroup rest = false) (p : Waiting → Bool) (hp : p group = false) (f : Function) :
    .function f ∉ stack.takeWhile p := by
  have htop := h.top_of_not_opensGroup hr
  have hchain := h.chain
  clear h
  induction stack with
  | nil => exact List.not_mem_nil
  | cons w stack ih =>
    cases hw : p w with
    | false =>
      rw [List.takeWhile_cons_of_neg (by simp [hw])]
      exact List.not_mem_nil
    | true =>
      have hbelow : ∀ g, .function g ∉ stack.head? := by
        intro g hg
        have hgroup := (List.isChain_cons.mp hchain).1 _ hg ⟨g, rfl⟩
        rw [hgroup, hp] at hw
        cases hw
      rw [List.takeWhile_cons_of_pos hw, List.mem_cons, not_or]
      refine ⟨?_, ih hbelow hchain.tail⟩
      intro hf
      exact htop f (by rw [hf, List.head?_cons, Option.mem_some_iff])

theorem Reaches.owned {tokens rest : List Token} {stack : List Waiting}
    (h : Reaches tokens stack rest) : Owned stack rest := by
  induction h with
  | start => exact .of_top .nil (by simp)
  | next _ hr ih => exact ih.read hr

/-- Reordering fails for lack of a parenthesis, for a function without a group, or for an unknown
token. -/
lemma cases_of_reorder {stack : List Waiting} {tokens : List Token} {c : Cause}
    (h : reorder stack tokens = .error c) :
    c.code = "3002" ∨ (∃ f : Function, c = .functionWithoutGroup f.name) ∨
      ∃ text, .unknown text ∈ tokens := by
  induction tokens generalizing stack with
  | nil =>
    rw [reorder_nil] at h
    split at h
    · cases h
      exact .inl rfl
    · cases h
  | cons token tokens ih =>
    rw [reorder_cons] at h
    obtain h | ⟨r, -, h⟩ := Outcome.bind_eq_error.mp h
    · cases token with
      | number x => cases h
      | operator o => cases h
      | function f =>
        rw [read] at h
        split at h
        · cases h
        · cases h
          exact .inr (.inl ⟨f, rfl⟩)
      | leftParen => cases h
      | rightParen =>
        rw [read] at h
        split at h
        · cases h
          exact .inl rfl
        · cases h
      | unknown text => exact .inr (.inr ⟨text, List.mem_cons_self⟩)
    · obtain h | ⟨l, -, h⟩ := Outcome.bind_eq_error.mp h
      · obtain h | h | ⟨text, h⟩ := ih h
        · exact .inl h
        · exact .inr (.inl h)
        · exact .inr (.inr ⟨text, List.mem_cons_of_mem _ h⟩)
      · cases h

/-- A token that stands in a postfix list: a finite number, an operator, or a function. -/
def IsItem : Token → Prop
  | .number x => x.isFinite
  | .operator _ => True
  | .function _ => True
  | _ => False

/-- What reordering puts out can be run. -/
lemma isItem_of_reorder {tokens l : List Token} (h : reorder [] tokens = .ok l)
    (ht : ∀ t ∈ tokens, t.Sound) : ∀ t ∈ l, IsItem t := by
  intro t hm
  have hm := (reorder_perm h).mem_iff.mp hm
  simp only [List.map_nil, Token.withoutGroups, List.filter_nil, List.nil_append,
    List.mem_filter] at hm
  have hs := ht t hm.1
  cases t with
  | number x => exact hs
  | operator o => trivial
  | function f => trivial
  | leftParen => cases hm.2
  | rightParen => cases hm.2
  | unknown text => exact hs

lemma isFinite_of_apply {x : Except Cause Float} {c : Cause} {y : Float}
    (h : (x >>= fun r => if r.isFinite then pure r else throw c) = .ok y) : y.isFinite := by
  obtain ⟨r, -, h⟩ := Outcome.bind_eq_ok.mp h
  split at h
  · next hf =>
    cases h
    exact hf
  · cases h

/-- The causes that running a postfix list can stop for. -/
def CanStop (c : Cause) : Prop :=
  c.kind = .calculation ∧ c.code ∈ ["2001", "3003", "3006", "3007"]

lemma canStop_of_function {f : Function} {x : Float} {c : Cause} (h : f.apply x = .error c) :
    CanStop c := by
  rw [Function.apply] at h
  obtain h | ⟨y, -, h⟩ := Outcome.bind_eq_error.mp h
  · obtain ⟨u, -, rfl⟩ := Outcome.mapError_eq_error.mp h
    exact ⟨rfl, by simp [Cause.code]⟩
  · split at h
    · cases h
    · cases h
      exact ⟨rfl, by simp [Cause.code]⟩

lemma canStop_of_operator {o : Operator} {x y : Float} {c : Cause} (h : o.apply x y = .error c) :
    CanStop c := by
  refine ⟨?_, ?_⟩
  · rw [Operator.apply] at h
    obtain h | ⟨z, -, h⟩ := Outcome.bind_eq_error.mp h
    · cases o with
      | add => cases h
      | subtract => cases h
      | multiply => cases h
      | divide =>
        rw [Operator.compute] at h
        split at h
        · cases h
          rfl
        · cases h
      | power =>
        obtain ⟨u, -, rfl⟩ := Outcome.mapError_eq_error.mp h
        rfl
    · split at h
      · cases h
      · cases h
        rfl
  · have := Operator.code_of_apply h
    simp only [List.mem_cons, List.not_mem_nil, or_false] at this ⊢
    rcases this with h | h
    · exact .inr (.inl h)
    · exact .inr (.inr (.inr h))

/-- One item of a postfix list keeps the values finite, or stops for a cause of calculating. -/
theorem step_safe {stack : List Float} {t : Token} (ht : IsItem t)
    (hs : ∀ x ∈ stack, x.isFinite) :
    (∃ next, step stack t = .ok next ∧ ∀ x ∈ next, x.isFinite) ∨
      ∃ c, step stack t = .error c ∧ CanStop c := by
  cases t with
  | number x => exact .inl ⟨_, rfl, List.forall_mem_cons.mpr ⟨ht, hs⟩⟩
  | operator o =>
    cases stack with
    | nil => exact .inr ⟨_, rfl, rfl, by simp [Cause.code]⟩
    | cons right stack =>
      cases stack with
      | nil => exact .inr ⟨_, rfl, rfl, by simp [Cause.code]⟩
      | cons left below =>
        cases ho : o.apply left right with
        | error c =>
          refine .inr ⟨c, ?_, canStop_of_operator ho⟩
          rw [step, ho]
          rfl
        | ok x =>
          refine .inl ⟨x :: below, ?_, List.forall_mem_cons.mpr ⟨isFinite_of_apply ho, ?_⟩⟩
          · rw [step, ho]
            rfl
          · intro y hy
            exact hs y (List.mem_cons_of_mem _ (List.mem_cons_of_mem _ hy))
  | function f =>
    cases stack with
    | nil => exact .inr ⟨_, rfl, rfl, by simp [Cause.code]⟩
    | cons x below =>
      cases hf : f.apply x with
      | error c =>
        refine .inr ⟨c, ?_, canStop_of_function hf⟩
        rw [step, hf]
        rfl
      | ok y =>
        refine .inl ⟨y :: below, ?_, List.forall_mem_cons.mpr ⟨isFinite_of_apply hf, ?_⟩⟩
        · rw [step, hf]
          rfl
        · intro z hz
          exact hs z (List.mem_cons_of_mem _ hz)
  | leftParen => cases ht
  | rightParen => cases ht
  | unknown text => cases ht

theorem run_safe {stack : List Float} {l : List Token} (hl : ∀ t ∈ l, IsItem t)
    (hs : ∀ x ∈ stack, x.isFinite) :
    (∃ final, run stack l = .ok final ∧ ∀ x ∈ final, x.isFinite) ∨
      ∃ c, run stack l = .error c ∧ CanStop c := by
  induction l generalizing stack with
  | nil => exact .inl ⟨stack, rfl, hs⟩
  | cons t l ih =>
    obtain ⟨ht, hl⟩ := List.forall_mem_cons.mp hl
    rw [run_cons]
    obtain ⟨next, h, hn⟩ | ⟨c, h, hc⟩ := step_safe ht hs
    · rw [h]
      exact ih hl hn
    · rw [h]
      exact .inr ⟨c, rfl, hc⟩

/-- A postfix list of items has a finite value, or stops for a cause of calculating. -/
theorem evaluate_safe {l : List Token} (hl : ∀ t ∈ l, IsItem t) :
    (∃ x, evaluate l = .ok x ∧ x.isFinite) ∨
      ∃ c, evaluate l = .error c ∧ (CanStop c ∨ ∃ n, c = .valuesLeft n) := by
  have hempty : ∀ x ∈ ([] : List Float), x.isFinite := by simp
  rw [evaluate]
  obtain ⟨final, h, hf⟩ | ⟨c, h, hc⟩ := run_safe hl hempty
  · rw [h, Outcome.ok_bind]
    cases final with
    | nil => exact .inr ⟨_, rfl, .inr ⟨_, rfl⟩⟩
    | cons x below =>
      cases below with
      | nil => exact .inl ⟨x, rfl, hf x List.mem_cons_self⟩
      | cons y below => exact .inr ⟨_, rfl, .inr ⟨_, rfl⟩⟩
  · rw [h]
    exact .inr ⟨c, rfl, .inl hc⟩

end Postfix

namespace Expression

/-- The kinds and codes that evaluating a text can fail with. -/
def faultCodes : List (Kind × String) :=
  [(.parsing, "3024"), (.parsing, "3002"), (.parsing, "3005"), (.parsing, "3010"),
    (.lexing, "3000"), (.lexing, "3008"), (.lexing, "3026"), (.lexing, "2000"),
    (.calculation, "3006"), (.calculation, "3011"), (.calculation, "3003"), (.calculation, "3007"),
    (.calculation, "2001")]

/-- What a spelled-out text that passed the checks never comes to. -/
structure Spared (s : List Char) : Prop where
  /-- No mark is refused as a character. -/
  marks : ∀ c d, .mark c ∈ Lexeme.split s → Lexeme.readMark c ≠ .error (.invalidCharacter d)
  /-- No run of digits and points with at most one point is read as a number without being one, but
  for the lone point. -/
  numerals : ∀ l, .numeral l ∈ Lexeme.split s → l.count '.' ≤ 1 →
    l = ['.'] ∨ ∃ n, Numeral.ofChars? l = some n
  /-- Reordering misses no parenthesis and meets no unknown token: a function may lack its group. -/
  order : ∀ tokens c, Token.tokenize s = .ok tokens → Postfix.ofTokens tokens = .error c →
    ∃ f : Function, c = .functionWithoutGroup f.name
  /-- No function is on top of the stack when an operator is read, nor when others have come out
  before it. -/
  waiting : ∀ tokens stack o rest, Token.tokenize s = .ok tokens →
    Postfix.Reaches tokens stack (.operator o :: rest) →
    ∀ f, .function f ∉ stack.head? ∧ .function f ∉ stack.takeWhile (·.yieldsTo o)
  /-- Running meets no operator and no function without a name in the tables. -/
  names : ∀ tokens l name, Token.tokenize s = .ok tokens → Postfix.ofTokens tokens = .ok l →
    Postfix.evaluate l ≠ .error (.unknownOperator name) ∧
      Postfix.evaluate l ≠ .error (.unknownName name)

lemma spared_of_passes {s : List Char} (h : Passes s) : Spared s where
  marks c d hm := by
    obtain ⟨hc, ha, hp⟩ := Lexeme.isCut_of_mem_split hm
    exact Lexeme.readMark_of_isAllowed (h.allowed c hc) ha hp d
  numerals l hm hc := by
    obtain ⟨hl, hp⟩ := Lexeme.isCut_of_mem_split hm
    obtain h | ⟨n, h⟩ := Numeral.exists_spells hl hp hc
    · exact .inl h
    · exact .inr ⟨n, Numeral.ofChars?_eq_some_iff.mpr h⟩
  order tokens c ht hc := by
    obtain h' | h' | ⟨text, h'⟩ := Postfix.cases_of_reorder hc
    · exact absurd (balanced_iff.mpr (h.closed 0)) (not_balanced_of_ofTokens ht hc h')
    · exact h'
    · exact (Token.sound_of_tokenize ht _ h').elim
  waiting tokens stack o rest _ hr f :=
    ⟨hr.owned.top_of_not_opensGroup rfl f, hr.owned.notMem_takeWhile rfl (·.yieldsTo o) rfl f⟩
  names tokens l name ht hl := by
    have hi := Postfix.isItem_of_reorder hl (Token.sound_of_tokenize ht)
    obtain ⟨x, hx, -⟩ | ⟨c, hc, ⟨hk, hs⟩ | ⟨n, rfl⟩⟩ := Postfix.evaluate_safe hi
    · rw [hx]
      constructor
      · intro h
        cases h
      · intro h
        cases h
    · rw [hc]
      constructor
      · intro h
        cases h
        exact absurd hs (by simp [Cause.code])
      · intro h
        cases h
        cases hk
    · rw [hc]
      constructor
      · intro h
        cases h
      · intro h
        cases h

/-- The kind and code of a text refused by the checks. -/
lemma faultCodes_of_check {s : List Char} {c : Cause} (h : check s = .error c) :
    (c.kind, c.code) ∈ faultCodes := by
  rw [check] at h
  split at h
  · cases h
    simp [faultCodes, Cause.kind, Cause.code]
  · split at h
    · next hp =>
      cases h
      rw [parenthesisFault?_eq] at hp
      revert hp
      cases depthAfter 0 s with
      | none =>
        rintro ⟨⟩
        simp [faultCodes, Cause.kind, Cause.code]
      | some d =>
        cases d with
        | zero => rintro ⟨⟩
        | succ d =>
          rintro ⟨⟩
          simp [faultCodes, Cause.kind, Cause.code]
    · split at h
      · cases h
        simp [faultCodes, Cause.kind, Cause.code]
      · split at h
        · cases h
          simp [faultCodes, Cause.kind, Cause.code]
        · cases h

/-- The kind and code of a text that cannot be cut into tokens. -/
lemma faultCodes_of_tokenize {s : List Char} {c : Cause} (h : Token.tokenize s = .error c) :
    (c.kind, c.code) ∈ faultCodes := by
  obtain ⟨x, -, hx⟩ := Outcome.exists_of_mapM_eq_error h
  have hc := Lexeme.code_of_read hx
  rw [Token.kind_of_read hx]
  simp only [List.mem_cons, List.not_mem_nil, or_false] at hc
  rcases hc with hc | hc | hc | hc <;> simp [faultCodes, hc]

lemma faultCodes_of_canStop {c : Cause} (h : Postfix.CanStop c) :
    (c.kind, c.code) ∈ faultCodes := by
  obtain ⟨hk, hc⟩ := h
  rw [hk]
  simp only [List.mem_cons, List.not_mem_nil, or_false] at hc
  rcases hc with hc | hc | hc | hc <;> simp [faultCodes, hc]

/-- A spelled-out text has a finite value or one of the faults. -/
lemma evaluateSpelled_safe (s : List Char) :
    (∃ x, evaluateSpelled s = .ok x ∧ x.isFinite) ∨
      ∃ c, evaluateSpelled s = .error c ∧ (c.kind, c.code) ∈ faultCodes := by
  rw [evaluateSpelled]
  cases hs : check s with
  | error c => exact .inr ⟨c, rfl, faultCodes_of_check hs⟩
  | ok u =>
    have h := spared_of_passes (check_eq_ok_iff.mp hs)
    rw [Outcome.ok_bind]
    cases ht : Token.tokenize s with
    | error c => exact .inr ⟨c, rfl, faultCodes_of_tokenize ht⟩
    | ok tokens =>
      rw [Outcome.ok_bind]
      cases hl : Postfix.ofTokens tokens with
      | error c =>
        obtain ⟨f, rfl⟩ := h.order tokens c ht hl
        exact .inr ⟨_, rfl, by simp [faultCodes, Cause.kind, Cause.code]⟩
      | ok l =>
        rw [Outcome.ok_bind]
        have hi := Postfix.isItem_of_reorder hl (Token.sound_of_tokenize ht)
        obtain hx | ⟨c, hc, hc' | ⟨n, rfl⟩⟩ := Postfix.evaluate_safe hi
        · exact .inl hx
        · exact .inr ⟨c, hc, faultCodes_of_canStop hc'⟩
        · exact .inr ⟨_, hc, by simp [faultCodes, Cause.kind, Cause.code]⟩

/-- A text is evaluated to a finite double, or fails as one of the faults and names itself; the checks
refuse it, or it is spared the branches that no text takes. -/
theorem evaluate_finite_or_fault (text : String) :
    ((∃ x, evaluate text = .ok x ∧ x.isFinite) ∨
        ∃ c, evaluate text = .error ⟨c, some text⟩ ∧ (c.kind, c.code) ∈ faultCodes) ∧
      ((∃ c, check (spell text.toList) = .error c) ∨ Spared (spell text.toList)) := by
  constructor
  · rw [evaluate]
    obtain ⟨x, hx, hf⟩ | ⟨c, hc, hm⟩ := evaluateSpelled_safe (spell text.toList)
    · rw [hx]
      exact .inl ⟨x, rfl, hf⟩
    · rw [hc]
      exact .inr ⟨c, rfl, hm⟩
  · cases h : check (spell text.toList) with
    | error c => exact .inl ⟨c, rfl⟩
    | ok u => exact .inr (spared_of_passes (check_eq_ok_iff.mp h))

end Expression

end Reckoner
