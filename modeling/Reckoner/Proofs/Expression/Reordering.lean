import Mathlib
import Reckoner.Proofs.Expression.Safety
import Reckoner.Proofs.Expression.Word

/-!
# Reordering any list of words

What reordering does with a list of doubles and texts that need not be an expression. A word `Offends`
where it stands if it is no word of an expression, if it is a function without a group, or if it closes a
group that is not open; the leftmost such word gives the cause (`Refused`). The words before it leave a
stack on which as many groups wait as they leave open (`exists_state`), so what is read next fails exactly
if it offends (`read_eq_error_iff`).
-/

namespace Reckoner

namespace Postfix

open Waiting (group)
open Expression (depthAfter depthStep Balanced)

/-- A word that cannot be reordered between the words before it and those after it, and why. -/
inductive Offends (before : List Word) : Word → List Word → Cause → Prop where
  | unknown {s after} :
    ¬Word.IsKnown (.text s) →
    Offends before (.text s) after (.unexpectedToken s)
  | function {f : Function} {after} :
    after.head? ≠ some (.text "(") →
    Offends before (.text f.name) after (.functionWithoutGroup f.name)
  | close {after} :
    (before.map Word.symbol).count '(' ≤ (before.map Word.symbol).count ')' →
    Offends before (.text ")") after .missingOpen

/-- No word of a list offends where others follow the list. -/
def Orderly (words after : List Word) : Prop :=
  ∀ b w a, words = b ++ w :: a → ∀ c, ¬Offends b w (a ++ after) c

/-- A list that cannot be reordered, and why: for its leftmost word that offends, or for a group that is
left open where no word does. -/
inductive Refused : List Word → Cause → Prop where
  | word {before w after c} :
    Orderly before (w :: after) →
    Offends before w after c →
    Refused (before ++ w :: after) c
  | unclosed {words} :
    Orderly words [] →
    (words.map Word.symbol).count ')' < (words.map Word.symbol).count '(' →
    Refused words .missingClose

/-- Every function name of a list is directly followed by an opening parenthesis. -/
def Grouped (words : List Word) : Prop :=
  ∀ before (f : Function) after, words = before ++ .text f.name :: after →
    after.head? = some (.text "(")

/-- The entry under a name in the table of precedences. -/
def precedence? (name : String) : Option Nat :=
  (Operator.ofName? name).map Operator.precedence

lemma opensGroup_map_token (words : List Word) :
    opensGroup (words.map Word.token) ↔ words.head? = some (.text "(") := by
  cases words with
  | nil => simp [opensGroup]
  | cons w words =>
    rw [List.map_cons, List.head?_cons, Option.some_inj, ← Word.token_inj, Word.token_leftParen]
    cases w.token <;> simp [opensGroup]

lemma read_rightParen {inside below : List Waiting} (h : group ∉ inside) (rest : List Token) :
    read (inside ++ group :: below) .rightParen rest =
      .ok (inside.map Waiting.token ++ (ownerOfGroup below).1, (ownerOfGroup below).2) := by
  have hp : ∀ w ∈ inside, decide (w ≠ group) = true := fun w hw => by
    simpa using ne_of_mem_of_not_mem hw h
  rw [read, List.takeWhile_append_of_pos hp, List.dropWhile_append_of_pos hp]
  simp

lemma read_rightParen_of_notMem {stack : List Waiting} (h : group ∉ stack) (rest : List Token) :
    read stack .rightParen rest = .error .missingOpen := by
  have hd : stack.dropWhile (· ≠ group) = [] :=
    List.dropWhile_eq_nil_iff.mpr fun w hw => by simpa using ne_of_mem_of_not_mem hw h
  rw [read, hd]

/-- As many groups wait after a token as are open after its character. -/
lemma depthStep_of_read {stack below : List Waiting} {t : Token} {rest out : List Token}
    (h : read stack t rest = .ok (out, below)) :
    depthStep (stack.count group) t.symbol = some (below.count group) := by
  cases t with
  | number x =>
    cases h
    rfl
  | operator o =>
    cases h
    rw [List.count_cons_of_ne (by simp), count_group_dropWhile, Token.symbol, depthStep,
      if_neg o.symbol_ne.1, if_neg o.symbol_ne.2]
  | function f =>
    rw [read] at h
    split at h
    · cases h
      rw [List.count_cons_of_ne (by simp)]
      rfl
    · cases h
  | leftParen =>
    cases h
    rw [List.count_cons_self]
    rfl
  | rightParen =>
    by_cases hm : group ∈ stack
    · obtain ⟨inside, outer, rfl, hn⟩ := List.eq_append_cons_of_mem hm
      rw [read_rightParen hn] at h
      cases h
      rw [count_group_ownerOfGroup, List.count_append, List.count_eq_zero.mpr hn,
        List.count_cons_self, Nat.zero_add]
      rfl
    · rw [read_rightParen_of_notMem hm] at h
      cases h
  | unknown text => cases h

/-- The words before a place leave as many groups open as wait on the stack there. -/
def Opens (before : List Word) (stack : List Waiting) : Prop :=
  depthAfter 0 (before.map Word.symbol) = some (stack.count group)

lemma Opens.count {before : List Word} {stack : List Waiting} (h : Opens before stack) :
    stack.count group + (before.map Word.symbol).count ')' =
      (before.map Word.symbol).count '(' := by
  have := (Expression.depthAfter_eq_some_iff.mp h).2
  rwa [Nat.zero_add] at this

lemma Opens.read {before : List Word} {w : Word} {stack below : List Waiting}
    {rest out : List Token} (h : Opens before stack)
    (hr : read stack w.token rest = .ok (out, below)) : Opens (before ++ [w]) below := by
  rw [Opens, List.map_append, Expression.depthAfter_append, h, Option.bind_some, List.map_singleton,
    Expression.depthAfter_singleton]
  exact depthStep_of_read hr

/-- A word that is read offends exactly if reading it fails. -/
theorem read_eq_error_iff {before rest : List Word} {w : Word} {stack : List Waiting} {c : Cause}
    (ho : Opens before stack) :
    read stack w.token (rest.map Word.token) = .error c ↔ Offends before w rest c := by
  have hcount := ho.count
  constructor
  · intro h
    have hw := w.standsFor_token
    generalize w.token = t at h hw
    cases hw with
    | number => cases h
    | operator => cases h
    | function =>
      rw [read] at h
      split at h
      · cases h
      · next hr =>
        cases h
        exact .function fun e => hr ((opensGroup_map_token rest).mpr e)
    | leftParen => cases h
    | rightParen =>
      by_cases hm : group ∈ stack
      · obtain ⟨inside, outer, rfl, hn⟩ := List.eq_append_cons_of_mem hm
        rw [read_rightParen hn] at h
        cases h
      · rw [read_rightParen_of_notMem hm] at h
        cases h
        rw [List.count_eq_zero.mpr hm, Nat.zero_add] at hcount
        exact .close hcount.ge
    | unknown hs =>
      cases h
      exact .unknown hs
  · intro h
    cases h with
    | unknown hs =>
      rw [Word.token_unknown hs]
      rfl
    | function hr =>
      rw [Word.token_function, read, if_neg fun e => hr ((opensGroup_map_token rest).mp e)]
    | close hc =>
      have hm : group ∉ stack := List.count_eq_zero.mp (by omega)
      rw [Word.token_rightParen, read_rightParen_of_notMem hm]

/-- A list is orderly if it is so up to its last word and this does not offend either. -/
lemma orderly_concat_iff {before after : List Word} {w : Word} :
    Orderly (before ++ [w]) after ↔
      Orderly before (w :: after) ∧ ∀ c, ¬Offends before w after c := by
  constructor
  · intro h
    refine ⟨fun b v a e c => ?_, h before w [] rfl⟩
    have := h b v (a ++ [w]) (by simp [e]) c
    rwa [List.append_assoc] at this
  · rintro ⟨h, hw⟩ b v a e c
    induction a using List.reverseRecOn with
    | nil =>
      obtain ⟨rfl, hv⟩ := List.append_inj' e rfl
      cases hv
      exact hw c
    | append_singleton a u _ =>
      rw [← List.cons_append, ← List.append_assoc] at e
      obtain ⟨rfl, hu⟩ := List.append_inj' e rfl
      cases hu
      rw [List.append_assoc]
      exact h b v a rfl c

/-- What has come out and what waits when a list is read up to a place. -/
lemma exists_state {before rest : List Word} (h : Orderly before rest) :
    ∃ out stack, Opens before stack ∧
      ofTokens ((before ++ rest).map Word.token) =
        reorder stack (rest.map Word.token) >>= fun l => .ok (out ++ l) := by
  induction before using List.reverseRecOn generalizing rest with
  | nil =>
    refine ⟨[], [], rfl, ?_⟩
    rw [List.nil_append, ofTokens]
    cases reorder [] (rest.map Word.token) with
    | error c => rfl
    | ok l => rfl
  | append_singleton before w ih =>
    obtain ⟨hb, hw⟩ := orderly_concat_iff.mp h
    obtain ⟨out, stack, ho, e⟩ := ih hb
    cases hr : read stack w.token (rest.map Word.token) with
    | error c => exact absurd ((read_eq_error_iff ho).mp hr) (hw c)
    | ok r =>
      refine ⟨out ++ r.1, r.2, ho.read hr, ?_⟩
      rw [List.append_assoc, List.singleton_append, e, List.map_cons, reorder_cons, hr,
        Outcome.ok_bind]
      cases reorder r.2 (rest.map Word.token) with
      | error c => rfl
      | ok l => simp

/-- A list that is reordered to its end is orderly and closes its groups; one that is not is refused. -/
lemma cases_of_reorder_words {before rest : List Word} {stack : List Waiting}
    (hb : Orderly before rest) (ho : Opens before stack) :
    (∀ l, reorder stack (rest.map Word.token) = .ok l →
        Orderly (before ++ rest) [] ∧ Opens (before ++ rest) []) ∧
      ∀ c, reorder stack (rest.map Word.token) = .error c → Refused (before ++ rest) c := by
  induction rest generalizing before stack with
  | nil =>
    rw [List.append_nil, List.map_nil, reorder_nil]
    by_cases hm : group ∈ stack
    · rw [if_pos hm]
      refine ⟨fun l h => (by cases h), ?_⟩
      rintro c ⟨⟩
      have hpos := List.count_pos_iff.mpr hm
      have hcount := ho.count
      exact .unclosed hb (by omega)
    · rw [if_neg hm]
      refine ⟨fun l _ => ⟨hb, ?_⟩, fun c h => (by cases h)⟩
      rw [Opens, ho, List.count_eq_zero.mpr hm]
      rfl
  | cons w rest ih =>
    rw [List.map_cons, reorder_cons]
    cases hr : read stack w.token (rest.map Word.token) with
    | error d =>
      refine ⟨fun l h => (by cases h), ?_⟩
      rintro c ⟨⟩
      exact .word hb ((read_eq_error_iff ho).mp hr)
    | ok r =>
      have hw : ∀ c, ¬Offends before w rest c := by
        intro c hc
        rw [(read_eq_error_iff ho).mpr hc] at hr
        cases hr
      have ih := ih (orderly_concat_iff.mpr ⟨hb, hw⟩) (ho.read hr)
      rw [List.append_assoc, List.singleton_append] at ih
      rw [Outcome.ok_bind]
      constructor
      · intro l h
        obtain ⟨m, hm, -⟩ := Outcome.bind_eq_ok.mp h
        exact ih.1 m hm
      · intro c h
        obtain h | ⟨m, -, h⟩ := Outcome.bind_eq_error.mp h
        · exact ih.2 c h
        · cases h

lemma orderly_nil (after : List Word) : Orderly [] after := by
  intro b w a e
  exact absurd e (by simp)

/-- A list is refused exactly for its leftmost word that offends, or for a group that is left open. -/
theorem ofTokens_eq_error_iff {words : List Word} {c : Cause} :
    ofTokens (words.map Word.token) = .error c ↔ Refused words c := by
  constructor
  · have h := @cases_of_reorder_words [] words [] (orderly_nil words) rfl
    exact h.2 c
  · intro h
    cases h with
    | word hb hw =>
      obtain ⟨out, stack, ho, e⟩ := exists_state hb
      rw [e, List.map_cons, reorder_cons, (read_eq_error_iff ho).mpr hw]
      rfl
    | unclosed hb hc =>
      obtain ⟨out, stack, ho, e⟩ := exists_state hb
      have hcount := ho.count
      have hm : group ∈ stack := List.count_pos_iff.mp (by omega)
      rw [List.append_nil] at e
      rw [e, List.map_nil, reorder_nil, if_pos hm]
      rfl

/-- A list is reordered exactly if no word offends and every group is closed. -/
lemma exists_ofTokens_iff_orderly {words : List Word} :
    (∃ l, ofTokens (words.map Word.token) = .ok l) ↔
      Orderly words [] ∧ Balanced (words.map Word.symbol) := by
  rw [Expression.balanced_iff]
  constructor
  · rintro ⟨l, hl⟩
    have h := @cases_of_reorder_words [] words [] (orderly_nil words) rfl
    exact h.1 l hl
  · rintro ⟨hb, hd⟩
    obtain ⟨out, stack, ho, e⟩ := exists_state hb
    have hm : group ∉ stack := List.count_eq_zero.mp (Option.some.inj (ho.symm.trans hd))
    rw [List.append_nil] at e
    rw [e, List.map_nil, reorder_nil, if_neg hm]
    exact ⟨_, rfl⟩

/-- In a balanced list no word offends if every text is known and every function has its group. -/
lemma orderly_iff {words : List Word} (h : Balanced (words.map Word.symbol)) :
    Orderly words [] ↔ (∀ w ∈ words, w.IsKnown) ∧ Grouped words := by
  constructor
  · intro ho
    refine ⟨fun w hw => ?_, fun before f after e => ?_⟩
    · obtain ⟨b, a, rfl⟩ := List.append_of_mem hw
      by_contra hk
      cases w with
      | number x => exact hk trivial
      | text s => exact ho b _ a rfl _ (.unknown hk)
    · by_contra hf
      rw [← List.append_nil after] at hf
      exact ho before _ after e _ (.function hf)
  · rintro ⟨hk, hg⟩ b w a e c ho
    rw [List.append_nil] at ho
    cases ho with
    | unknown hs => exact hs (hk _ (e ▸ List.mem_append_right b List.mem_cons_self))
    | function hf => exact hf (hg b _ a e)
    | close hc =>
      have hp : (b ++ [Word.text ")"]).map Word.symbol <+: words.map Word.symbol := by
        rw [e, List.append_cons b _ a]
        exact (List.prefix_append ..).map Word.symbol
      have hle := h.1 _ hp
      have hs : (Word.text ")").symbol = ')' := by
        rw [Word.symbol, Word.token_rightParen]
        rfl
      rw [List.map_append, List.map_singleton, hs, List.count_append, List.count_append,
        List.count_singleton_self, List.count_singleton, if_neg (by decide)] at hle
      omega

/-- No number waits. -/
lemma filter_isNumber_waiting (l : List Waiting) :
    (l.map Waiting.token).filter Token.isNumber = [] := by
  rw [List.filter_eq_nil_iff]
  intro t ht
  obtain ⟨w, -, rfl⟩ := List.mem_map.mp ht
  cases w <;> rintro ⟨⟩

/-- What a token puts out holds the number that it is. -/
lemma filter_isNumber_of_read {stack below : List Waiting} {t : Token} {rest out : List Token}
    (h : read stack t rest = .ok (out, below)) :
    out.filter Token.isNumber = [t].filter Token.isNumber := by
  cases t with
  | number x =>
    cases h
    rfl
  | operator o =>
    cases h
    exact filter_isNumber_waiting _
  | function f =>
    rw [read] at h
    split at h
    · cases h
      rfl
    · cases h
  | leftParen =>
    cases h
    rfl
  | rightParen =>
    by_cases hm : group ∈ stack
    · obtain ⟨inside, outer, rfl, hn⟩ := List.eq_append_cons_of_mem hm
      rw [read_rightParen hn] at h
      cases h
      rw [List.filter_append, filter_isNumber_waiting]
      cases outer with
      | nil => rfl
      | cons w outer => cases w <;> rfl
    · rw [read_rightParen_of_notMem hm] at h
      cases h
  | unknown text => cases h

/-- Reordering keeps the order of the numbers. -/
theorem filter_isNumber_of_reorder {stack : List Waiting} {tokens l : List Token}
    (h : reorder stack tokens = .ok l) :
    l.filter Token.isNumber = tokens.filter Token.isNumber := by
  induction tokens generalizing stack l with
  | nil =>
    rw [reorder_nil] at h
    split at h
    · cases h
    · cases h
      exact filter_isNumber_waiting stack
  | cons t tokens ih =>
    rw [reorder_cons, Outcome.bind_eq_ok] at h
    obtain ⟨⟨out, below⟩, hr, h⟩ := h
    obtain ⟨m, hm, ⟨⟩⟩ := Outcome.bind_eq_ok.mp h
    rw [List.filter_append, filter_isNumber_of_read hr, ih hm, ← List.filter_append,
      List.singleton_append]

/-- Every name that reordering looks up when it reads an operator is in the table of precedences. -/
lemma precedence?_of_reaches {tokens rest : List Token} {stack : List Waiting} {o : Operator}
    (h : Reaches tokens stack (.operator o :: rest)) :
    ∀ t ∈ Token.operator o :: (stack.takeWhile (· ≠ group)).map Waiting.token,
      ∃ n, precedence? t.text = some n := by
  have operator (o : Operator) : ∃ n, precedence? (Token.operator o).text = some n :=
    ⟨o.precedence, congrArg (Option.map Operator.precedence) (Operator.ofName?_name o)⟩
  refine List.forall_mem_cons.mpr ⟨operator o, ?_⟩
  intro t ht
  obtain ⟨w, hw, rfl⟩ := List.mem_map.mp ht
  cases w with
  | operator o => exact operator o
  | function f => exact absurd hw (h.owned.notMem_takeWhile rfl _ (by simp) f)
  | group => exact absurd (List.mem_takeWhile_imp hw) (by simp)

lemma Refused.kind {words : List Word} {c : Cause} (h : Refused words c) : c.kind = .parsing := by
  cases h with
  | word _ hw => cases hw <;> rfl
  | unclosed => rfl

/-- The code for each kind of word that offends. -/
lemma Offends.code {before after : List Word} {w : Word} {c : Cause}
    (h : Offends before w after c) :
    c.code = "3004" ∧ ¬w.IsKnown ∨ c.code = "3010" ∧ (∃ f : Function, w = .text f.name) ∨
      c.code = "3002" ∧ w = .text ")" := by
  cases h with
  | unknown hs => exact .inl ⟨rfl, hs⟩
  | function => exact .inr (.inl ⟨rfl, _, rfl⟩)
  | close => exact .inr (.inr ⟨rfl, rfl⟩)

/-- Where no word offends, a group is left open. -/
lemma Refused.code_of_orderly {words : List Word} {c : Cause} (h : Refused words c)
    (ho : Orderly words []) : c.code = "3002" := by
  cases h with
  | @word before w after c _ hw =>
    rw [← List.append_nil after] at hw
    exact absurd hw (ho before w after rfl c)
  | unclosed => rfl

/-- Which lists of doubles and texts are reordered, to what, and why the others are not. No name that is
looked up in the table of precedences is missing there. -/
theorem ofTokens_words (words : List Word) :
    ((∃ l, ofTokens (words.map Word.token) = .ok l) ↔
        (∀ w ∈ words, w.IsKnown) ∧ Grouped words ∧ Balanced (words.map Word.symbol)) ∧
      (∀ l, ofTokens (words.map Word.token) = .ok l →
        l.Perm (Token.withoutGroups (words.map Word.token)) ∧
          l.filter Token.isNumber = (words.map Word.token).filter Token.isNumber) ∧
      (∀ c, (ofTokens (words.map Word.token) = .error c ↔ Refused words c) ∧
        (Refused words c → c.kind = .parsing ∧ (Orderly words [] → c.code = "3002"))) ∧
      (∀ before w after c, Offends before w after c →
        c.code = "3004" ∧ ¬w.IsKnown ∨ c.code = "3010" ∧ (∃ f : Function, w = .text f.name) ∨
          c.code = "3002" ∧ w = .text ")") ∧
      ∀ stack o rest, Reaches (words.map Word.token) stack (.operator o :: rest) →
        ∀ t ∈ Token.operator o :: (stack.takeWhile (· ≠ group)).map Waiting.token,
          ∃ n, precedence? t.text = some n := by
  refine ⟨?_, ?_, ?_, ?_, ?_⟩
  · rw [exists_ofTokens_iff_orderly, ← and_assoc]
    exact and_congr_left orderly_iff
  · intro l hl
    exact ⟨reorder_perm hl, filter_isNumber_of_reorder hl⟩
  · intro c
    exact ⟨ofTokens_eq_error_iff, fun h => ⟨h.kind, h.code_of_orderly⟩⟩
  · intro before w after c h
    exact h.code
  · intro stack o rest h
    exact precedence?_of_reaches h

end Postfix

end Reckoner
