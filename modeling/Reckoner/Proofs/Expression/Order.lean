import Mathlib
import Reckoner.Expression.Postfix
import Reckoner.Proofs.Expression.Balance
import Reckoner.Proofs.Outcome

/-!
# Reordering and running

Reordering reads one token after the other, and what it does with a token is one equation each. From the
equations follow two facts about groups. A group is reordered as if it stood alone, whatever waits below
it (`reorder_group`), and a parenthesis is missed only where the text that was cut into tokens is not
balanced (`not_balanced_of_reorder`). Running a postfix list does not look at the values below those it uses
(`run_frame`).
-/

namespace Reckoner

namespace Token

/-- The character that a token is, or a digit in place of a number or a name. -/
def symbol : Token → Char
  | operator o => o.symbol
  | leftParen => '('
  | rightParen => ')'
  | _ => '0'

end Token

namespace Postfix

open Waiting (group)

lemma reorder_nil (stack : List Waiting) :
    reorder stack [] =
      if group ∈ stack then .error .missingClose else .ok (stack.map Waiting.token) := rfl

lemma reorder_number (stack : List Waiting) (x : Float) (rest : List Token) :
    reorder stack (.number x :: rest) =
      reorder stack rest >>= fun l => .ok (.number x :: l) := rfl

lemma reorder_function (stack : List Waiting) (f : Function) (rest : List Token) :
    reorder stack (.function f :: rest) =
      if opensGroup rest then reorder (.function f :: stack) rest
      else .error (.functionWithoutGroup f.name) := rfl

lemma reorder_leftParen (stack : List Waiting) (rest : List Token) :
    reorder stack (.leftParen :: rest) = reorder (group :: stack) rest := rfl

/-- A closing parenthesis takes everything out down to the group that it closes. -/
lemma reorder_rightParen {inside below : List Waiting} (h : group ∉ inside) (rest : List Token) :
    reorder (inside ++ group :: below) (.rightParen :: rest) =
      reorder (ownerOfGroup below).2 rest >>= fun l =>
        .ok (inside.map Waiting.token ++ (ownerOfGroup below).1 ++ l) := by
  have hp : ∀ w ∈ inside, decide (w ≠ group) = true := fun w hw => by
    simpa using fun e : w = group => h (e ▸ hw)
  rw [reorder]
  simp only [List.takeWhile_append_of_pos hp, List.dropWhile_append_of_pos hp, ne_eq,
    not_true_eq_false, decide_false, Bool.false_eq_true, not_false_eq_true,
    List.takeWhile_cons_of_neg, List.dropWhile_cons_of_neg, List.append_nil]
  rfl

/-- A closing parenthesis with no open group is refused. -/
lemma reorder_rightParen_of_notMem {stack : List Waiting} (h : group ∉ stack)
    (rest : List Token) : reorder stack (.rightParen :: rest) = .error .missingOpen := by
  have hd : stack.dropWhile (· ≠ group) = [] :=
    List.dropWhile_eq_nil_iff.mpr fun w hw => by simpa using fun e : w = group => h (e ▸ hw)
  rw [reorder]
  simp only [hd]

lemma reorder_operator (stack : List Waiting) (o : Operator) (rest : List Token) :
    reorder stack (.operator o :: rest) =
      reorder (.operator o :: stack.dropWhile (·.yieldsTo o)) rest >>= fun l =>
        .ok ((stack.takeWhile (·.yieldsTo o)).map Waiting.token ++ l) := rfl

@[simp] lemma ownerOfGroup_nil : ownerOfGroup [] = ([], []) := rfl

@[simp] lemma ownerOfGroup_function (f : Function) (stack : List Waiting) :
    ownerOfGroup (.function f :: stack) = ([.function f], stack) := rfl

@[simp] lemma ownerOfGroup_operator (o : Operator) (stack : List Waiting) :
    ownerOfGroup (.operator o :: stack) = ([], .operator o :: stack) := rfl

/-- The owner of a group is looked for above the groups that are open below it. -/
lemma ownerOfGroup_append (stack below : List Waiting) :
    ownerOfGroup (stack ++ group :: below) =
      ((ownerOfGroup stack).1, (ownerOfGroup stack).2 ++ group :: below) := by
  cases stack with
  | nil => rfl
  | cons w stack => cases w <;> rfl

/-- The operators that come out before another one are above the innermost open group. -/
lemma takeWhile_yieldsTo_append (o : Operator) (stack below : List Waiting) :
    (stack ++ group :: below).takeWhile (·.yieldsTo o) = stack.takeWhile (·.yieldsTo o) ∧
      (stack ++ group :: below).dropWhile (·.yieldsTo o) =
        stack.dropWhile (·.yieldsTo o) ++ group :: below := by
  induction stack with
  | nil => exact ⟨rfl, rfl⟩
  | cons w stack ih =>
    rw [List.cons_append]
    by_cases hw : w.yieldsTo o
    · rw [List.takeWhile_cons_of_pos hw, List.takeWhile_cons_of_pos hw,
        List.dropWhile_cons_of_pos hw, List.dropWhile_cons_of_pos hw, ih.1, ih.2]
      exact ⟨rfl, rfl⟩
    · rw [List.takeWhile_cons_of_neg hw, List.takeWhile_cons_of_neg hw,
        List.dropWhile_cons_of_neg hw, List.dropWhile_cons_of_neg hw]
      exact ⟨rfl, rfl⟩

/-- A group opens next if one opens next before other tokens are added. -/
lemma opensGroup_append {tokens : List Token} (h : opensGroup tokens) (rest : List Token) :
    opensGroup (tokens ++ rest) := by
  cases tokens with
  | nil => cases h
  | cons t tokens => cases t <;> first | rfl | cases h

/-- A group is reordered as if it stood alone. -/
theorem reorder_group {stack below : List Waiting} {tokens rest l : List Token}
    (h : reorder stack tokens = .ok l) :
    reorder (stack ++ group :: below) (tokens ++ .rightParen :: rest) =
      reorder (ownerOfGroup below).2 rest >>= fun r =>
        .ok (l ++ ((ownerOfGroup below).1 ++ r)) := by
  -- What comes out later comes out behind what has come out.
  have behind (m n : List Token) :
      ((reorder (ownerOfGroup below).2 rest >>= fun r =>
          .ok (n ++ ((ownerOfGroup below).1 ++ r))) >>= fun r => .ok (m ++ r)) =
        reorder (ownerOfGroup below).2 rest >>= fun r =>
          Except.ok (ε := Cause) (m ++ n ++ ((ownerOfGroup below).1 ++ r)) := by
    cases reorder (ownerOfGroup below).2 rest with
    | error c => rfl
    | ok r => simp
  induction tokens generalizing stack l with
  | nil =>
    rw [reorder_nil] at h
    split at h
    · cases h
    · next hn =>
      cases h
      rw [List.nil_append, reorder_rightParen hn]
      simp only [List.append_assoc]
  | cons token tokens ih =>
    rw [List.cons_append]
    cases token with
    | number x =>
      rw [reorder_number, Outcome.bind_eq_ok] at h
      obtain ⟨l, hl, ⟨⟩⟩ := h
      rw [reorder_number, ih hl]
      exact behind [.number x] l
    | operator o =>
      rw [reorder_operator, Outcome.bind_eq_ok] at h
      obtain ⟨l, hl, ⟨⟩⟩ := h
      obtain ⟨ht, hd⟩ := takeWhile_yieldsTo_append o stack below
      have ih := ih hl
      rw [List.cons_append] at ih
      rw [reorder_operator, ht, hd, ih]
      exact behind _ l
    | function f =>
      rw [reorder_function] at h
      split at h
      · next ho => rw [reorder_function, if_pos (opensGroup_append ho _)]; exact ih h
      · cases h
    | leftParen => exact ih h
    | rightParen =>
      by_cases hm : group ∈ stack
      · obtain ⟨inside, outer, rfl, hn⟩ := List.eq_append_cons_of_mem hm
        rw [reorder_rightParen hn, Outcome.bind_eq_ok] at h
        obtain ⟨l, hl, ⟨⟩⟩ := h
        rw [List.append_assoc, List.cons_append, reorder_rightParen hn, ownerOfGroup_append, ih hl]
        exact behind _ l
      · rw [reorder_rightParen_of_notMem hm] at h
        cases h
    | unknown text => cases h

/-- A group at the start is reordered as if it stood alone. -/
lemma reorder_leftParen_append {tokens l : List Token} (h : reorder [] tokens = .ok l)
    (stack : List Waiting) (rest : List Token) :
    reorder stack (.leftParen :: (tokens ++ .rightParen :: rest)) =
      reorder (ownerOfGroup stack).2 rest >>= fun r =>
        .ok (l ++ ((ownerOfGroup stack).1 ++ r)) := by
  rw [reorder_leftParen]
  exact reorder_group h

lemma count_group_dropWhile (o : Operator) (stack : List Waiting) :
    (stack.dropWhile (·.yieldsTo o)).count group = stack.count group := by
  have ht : (stack.takeWhile (·.yieldsTo o)).count group = 0 := by
    rw [List.count_eq_zero]
    exact fun h => Bool.false_ne_true (List.mem_takeWhile_imp h)
  have h := congrArg (List.count group) (List.takeWhile_append_dropWhile (p := (·.yieldsTo o))
    (l := stack))
  rwa [List.count_append, ht, Nat.zero_add] at h

lemma count_group_ownerOfGroup (stack : List Waiting) :
    (ownerOfGroup stack).2.count group = stack.count group := by
  cases stack with
  | nil => rfl
  | cons w stack => cases w <;> rfl

/-- Tokens that lack a parenthesis are not balanced. -/
theorem not_balanced_of_reorder {stack : List Waiting} {tokens : List Token} {c : Cause}
    (h : reorder stack tokens = .error c) (hc : c.code = "3002") :
    Expression.depthAfter (stack.count group) (tokens.map Token.symbol) ≠ some 0 := by
  induction tokens generalizing stack with
  | nil =>
    rw [reorder_nil] at h
    split at h
    · next hm =>
      have := List.count_pos_iff.mpr hm
      simp only [List.map_nil, Expression.depthAfter_nil, ne_eq, Option.some.injEq]
      omega
    · cases h
  | cons token tokens ih =>
    rw [List.map_cons]
    cases token with
    | number x =>
      rw [reorder_number] at h
      obtain h | ⟨l, -, h⟩ := Outcome.bind_eq_error.mp h
      · exact ih h
      · cases h
    | operator o =>
      rw [reorder_operator] at h
      obtain h | ⟨l, -, h⟩ := Outcome.bind_eq_error.mp h
      · have ih := ih h
        rwa [List.count_cons_of_ne (by simp), count_group_dropWhile,
          ← Expression.depthAfter_operator o] at ih
      · cases h
    | function f =>
      rw [reorder_function] at h
      split at h
      · have ih := ih h
        rwa [List.count_cons_of_ne (by simp)] at ih
      · cases h
        -- A function without a group has a code of its own.
        exact absurd hc (show "3010" ≠ "3002" by decide)
    | leftParen =>
      have ih := ih h
      rwa [List.count_cons_self] at ih
    | rightParen =>
      by_cases hm : group ∈ stack
      · obtain ⟨inside, outer, rfl, hn⟩ := List.eq_append_cons_of_mem hm
        rw [reorder_rightParen hn] at h
        obtain h | ⟨l, -, h⟩ := Outcome.bind_eq_error.mp h
        · have ih := ih h
          rw [count_group_ownerOfGroup] at ih
          rwa [List.count_append, List.count_eq_zero.mpr hn, List.count_cons_self, Nat.zero_add]
        · cases h
      · rw [List.count_eq_zero.mpr hm]
        exact Option.some_ne_none 0 |>.symm
    | unknown text =>
      cases h
      exact absurd hc (show "3004" ≠ "3002" by decide)

/-- Running does not look at the values below those it uses. -/
theorem run_frame {stack result : List Float} {tokens : List Token}
    (h : run stack tokens = .ok result) (below : List Float) :
    run (stack ++ below) tokens = .ok (result ++ below) := by
  induction tokens generalizing stack with
  | nil =>
    cases h
    rfl
  | cons token tokens ih =>
    rw [run_cons, Outcome.bind_eq_ok] at h
    obtain ⟨next, hs, hr⟩ := h
    have hs : step (stack ++ below) token = .ok (next ++ below) := by
      cases token with
      | number x =>
        cases hs
        rfl
      | operator o =>
        match stack, hs with
        | right :: left :: stack, hs =>
          obtain ⟨x, hx, ⟨⟩⟩ := Outcome.bind_eq_ok.mp hs
          exact Outcome.bind_eq_ok.mpr ⟨x, hx, rfl⟩
      | function f =>
        match stack, hs with
        | x :: stack, hs =>
          obtain ⟨y, hy, ⟨⟩⟩ := Outcome.bind_eq_ok.mp hs
          exact Outcome.bind_eq_ok.mpr ⟨y, hy, rfl⟩
      | leftParen => cases hs
      | rightParen => cases hs
      | unknown text => cases hs
    rw [run_cons, hs]
    exact ih hr

lemma evaluate_eq_ok_iff {tokens : List Token} {x : Float} :
    evaluate tokens = .ok x ↔ run [] tokens = .ok [x] := by
  rw [evaluate, Outcome.bind_eq_ok]
  constructor
  · rintro ⟨stack, h, hx⟩
    split at hx
    · cases hx
      exact h
    · cases hx
  · intro h
    exact ⟨[x], h, rfl⟩

lemma evaluate_append_function {l : List Token} {x : Float} (h : run [] l = .ok [x])
    (f : Function) : evaluate (l ++ [.function f]) = f.apply x := by
  rw [evaluate, run_append, h]
  cases hf : f.apply x <;>
    simp [bind, Except.bind, pure, Except.pure, step, hf]

lemma evaluate_append_operator {l m : List Token} {x y : Float} (hl : run [] l = .ok [x])
    (hm : run [] m = .ok [y]) (o : Operator) :
    evaluate (l ++ (m ++ [.operator o])) = o.apply x y := by
  have hm : run [x] m = .ok [y, x] := run_frame hm [x]
  rw [evaluate, run_append, hl, Outcome.ok_bind, run_append, hm]
  cases ho : o.apply x y <;>
    simp [bind, Except.bind, pure, Except.pure, step, ho]

end Postfix

end Reckoner
