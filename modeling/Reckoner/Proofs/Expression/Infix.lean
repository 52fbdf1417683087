import Mathlib
import Reckoner.Expression.Tree
import Reckoner.Proofs.Expression.Order
import Reckoner.Proofs.Expression.Outline

/-!
# Infix order

The relation `Infix` says which lists of tokens write a tree in infix order: operands of an operator bind
at least as strongly as it, the one on the side of its associativity may bind equally, and parentheses go
around anything. Reordering such a list gives the tree in post-order (`reorder_eq_postorder`). The
proof is an induction over the relation; its invariant is that reading a list in infix order leaves
nothing on the stack but operators of its level, and that these come after the tokens that have come out.

A list in infix order passes the checks: its groups are closed and its operators apart. Operands and what
stands between them take turns in it (`Alternates`), so its numbers are apart, too.
-/

namespace Reckoner

namespace Operator

/-- How strongly the left operand has to bind. -/
def leftLevel (o : Operator) : Nat :=
  if o.isRightAssociative then o.precedence + 1 else o.precedence

/-- How strongly the right operand has to bind. -/
def rightLevel (o : Operator) : Nat :=
  if o.isRightAssociative then o.precedence else o.precedence + 1

end Operator

/-- Whether a token is a number. -/
def Token.isNumber : Token → Bool
  | number _ => true
  | _ => false

/-- Lists of tokens that write a tree in infix order, by how strongly they bind. -/
inductive Infix : Nat → List Token → Tree → Prop where
  | number {x} :
    Infix 4 [.number x] (.number x)
  | call {f l t} :
    Infix 1 l t →
    Infix 4 (.function f :: .leftParen :: (l ++ [.rightParen])) (.call f t)
  | group {l t} :
    Infix 1 l t →
    Infix 4 (.leftParen :: (l ++ [.rightParen])) t
  | binary {o l m t u} :
    Infix (Operator.leftLevel o) l t →
    Infix (Operator.rightLevel o) m u →
    Infix (Operator.precedence o) (l ++ .operator o :: m) (.binary o t u)
  | weaken {n l t} :
    Infix (n + 1) l t →
    Infix n l t

namespace Token

/-- Whether a token begins an operand. -/
def beginsOperand : Token → Bool
  | number _ | function _ | leftParen => true
  | _ => false

/-- Whether a token ends an operand. -/
def endsOperand : Token → Bool
  | number _ | rightParen => true
  | _ => false

end Token

/-- An operand begins at the start and wherever none has ended just before, and nowhere else. -/
structure Alternates (l : List Token) : Prop where
  first : ∀ a ∈ l.head?, a.beginsOperand
  last : ∀ a ∈ l.getLast?, a.endsOperand
  chain : l.IsChain fun a b => b.beginsOperand = !a.endsOperand

namespace Postfix

open Waiting (group)

/-- What may wait on top of a stack before a list of the level `n`: an open group, or an operator that
takes such a list as its right operand. -/
def Waits (n : Nat) (stack : List Waiting) : Prop :=
  ∀ w ∈ stack.head?, w = group ∨ ∃ o, w = .operator o ∧ o.rightLevel ≤ n

lemma Waits.mono {n m : Nat} {stack : List Waiting} (h : Waits n stack) (hn : n ≤ m) :
    Waits m stack := by
  intro w hw
  obtain rfl | ⟨o, rfl, ho⟩ := h w hw
  · exact .inl rfl
  · exact .inr ⟨o, rfl, ho.trans hn⟩

/-- What waits for a list stays on the stack before the operators of the list. -/
lemma Waits.stays {n : Nat} {stack : List Waiting} (h : Waits n stack) {o : Operator}
    (hn : n ≤ o.precedence) : ∀ w ∈ stack.head?, w.yieldsTo o = false := by
  intro w hw
  obtain rfl | ⟨top, rfl, ht⟩ := h w hw
  · rfl
  · have hl := ht.trans hn
    revert hl
    cases top <;> cases o <;> decide

/-- The operators of a left operand come out before the operator that takes it. -/
lemma yieldsTo_of_leftLevel {o top : Operator} (h : o.leftLevel ≤ top.precedence) :
    (Waiting.operator top).yieldsTo o := by
  revert h
  cases top <;> cases o <;> decide

/-- What waits for a group of its own is no function. -/
lemma Waits.ownerOfGroup {n : Nat} {stack : List Waiting} (h : Waits n stack) :
    ownerOfGroup stack = ([], stack) := by
  cases stack with
  | nil => rfl
  | cons w stack =>
    obtain rfl | ⟨o, rfl, -⟩ := h w rfl
    · rfl
    · rfl

/-- An operator takes what came out of its left operand and lets the rest of it come out. -/
lemma reorder_operator_of_waits {o : Operator} {waiting stack : List Waiting} {rest : List Token}
    (hw : ∀ w ∈ waiting, w.yieldsTo o) (hs : ∀ w ∈ stack.head?, w.yieldsTo o = false) :
    reorder (waiting ++ stack) (.operator o :: rest) =
      reorder (.operator o :: stack) rest >>= fun r =>
        .ok (waiting.map Waiting.token ++ r) := by
  have hd : stack.dropWhile (·.yieldsTo o) = stack ∧ stack.takeWhile (·.yieldsTo o) = [] := by
    cases stack with
    | nil => exact ⟨rfl, rfl⟩
    | cons w stack => simp [hs w rfl]
  rw [reorder_operator, List.takeWhile_append_of_pos hw, List.dropWhile_append_of_pos hw, hd.1,
    hd.2, List.append_nil]

/-- What reading a list of the level `n` does: some tokens of its tree come out, operators of the level
wait on the stack, and together they are the tree in post-order. -/
def ReadsAs (n : Nat) (stack : List Waiting) (l : List Token) (t : Tree) : Prop :=
  ∃ out waiting, out ++ waiting.map Waiting.token = t.postorder ∧
    (∀ w ∈ waiting, ∃ o, w = .operator o ∧ n ≤ o.precedence) ∧
    ∀ rest, reorder stack (l ++ rest) =
      reorder (waiting ++ stack) rest >>= fun r => .ok (out ++ r)

/-- A list that is read alone is complete at its end. -/
lemma ReadsAs.reorder_eq {n : Nat} {l : List Token} {t : Tree} (h : ReadsAs n [] l t) :
    reorder [] l = .ok t.postorder := by
  obtain ⟨out, waiting, ho, hw, h⟩ := h
  have hg : group ∉ waiting := fun hm => by
    obtain ⟨o, ho, -⟩ := hw _ hm
    cases ho
  have h := h []
  rw [List.append_nil, List.append_nil, reorder_nil, if_neg hg, Outcome.ok_bind, ho] at h
  exact h

lemma waits_nil (n : Nat) : Waits n [] := by
  simp [Waits]

/-- Reading a list in infix order goes on behind it with nothing but operators of its level added to the
stack. -/
theorem readsAs_of_waits {n : Nat} {l : List Token} {t : Tree} (h : Infix n l t)
    {stack : List Waiting} (hs : Waits n stack) : ReadsAs n stack l t := by
  induction h generalizing stack with
  | @number x =>
    refine ⟨[.number x], [], rfl, by simp, fun rest => ?_⟩
    rw [List.singleton_append, reorder_number]
    rfl
  | @call f l t _ ih =>
    refine ⟨t.postorder ++ [.function f], [], by simp [Tree.postorder], by simp, fun rest => ?_⟩
    simp only [List.cons_append, List.append_assoc, List.nil_append]
    rw [reorder_function, if_pos (by rfl), reorder_leftParen_append (ih (waits_nil 1)).reorder_eq]
    rfl
  | @group l t _ ih =>
    refine ⟨t.postorder, [], by simp, by simp, fun rest => ?_⟩
    simp only [List.cons_append, List.append_assoc, List.nil_append]
    rw [reorder_leftParen_append (ih (waits_nil 1)).reorder_eq, hs.ownerOfGroup]
    rfl
  | @binary o l m t u _ _ ihl ihm =>
    have hl : o.precedence ≤ o.leftLevel ∧ o.precedence ≤ o.rightLevel := by
      cases o <;> decide
    -- What the left operand leaves on the stack comes out before the operator, which then waits for
    -- its right operand.
    obtain ⟨out, waiting, hp, hw, hout⟩ := ihl (hs.mono hl.1)
    have ho : Waits o.rightLevel (.operator o :: stack) := by
      rintro w ⟨⟩
      exact .inr ⟨o, rfl, le_rfl⟩
    obtain ⟨out', waiting', hp', hw', hout'⟩ := ihm ho
    have hy : ∀ w ∈ waiting, w.yieldsTo o := by
      intro w hm
      obtain ⟨top, rfl, ht⟩ := hw w hm
      exact yieldsTo_of_leftLevel ht
    refine ⟨out ++ (waiting.map Waiting.token ++ out'), waiting' ++ [.operator o], ?_, ?_, ?_⟩
    · rw [Tree.postorder, ← hp, ← hp']
      simp [Waiting.token]
    · intro w hm
      rcases List.mem_append.mp hm with hm | hm
      · obtain ⟨top, rfl, ht⟩ := hw' w hm
        exact ⟨top, rfl, hl.2.trans ht⟩
      · rw [List.mem_singleton] at hm
        exact ⟨o, hm, le_rfl⟩
    · intro rest
      rw [List.append_assoc, List.cons_append, hout,
        reorder_operator_of_waits hy (hs.stays le_rfl), hout', List.append_assoc,
        List.singleton_append]
      cases reorder (waiting' ++ .operator o :: stack) rest with
      | error c => rfl
      | ok r => simp
  | weaken _ ih =>
    obtain ⟨out, waiting, ho, hw, h⟩ := ih (hs.mono (Nat.le_succ _))
    refine ⟨out, waiting, ho, fun w hm => ?_, h⟩
    obtain ⟨o, rfl, hn⟩ := hw w hm
    exact ⟨o, rfl, by omega⟩

/-- Reordering a list in infix order gives its tree in post-order. -/
theorem reorder_eq_postorder {n : Nat} {l : List Token} {t : Tree} (h : Infix n l t) :
    reorder [] l = .ok t.postorder :=
  (readsAs_of_waits h (waits_nil n)).reorder_eq

/-- A tree in post-order has the value of the tree. -/
theorem evaluate_postorder (t : Tree) : evaluate t.postorder = t.evaluate := by
  rw [evaluate, t.run_postorder]
  cases t.evaluate <;> rfl

end Postfix

namespace Infix

open Expression (depthAfter hasRunAfter isAllowed isOperatorChar)

variable {n : Nat} {l : List Token} {t : Tree}

lemma depthAfter_symbol (h : Infix n l t) (d : Nat) :
    depthAfter d (l.map Token.symbol) = some d := by
  induction h generalizing d with
  | number => rfl
  | @call f l t _ ih =>
    refine (Expression.depthAfter_other (c := '0') (by decide) (by decide) d _).trans ?_
    rw [List.map_cons, List.map_append]
    exact Expression.depthAfter_group ih d []
  | group _ ih =>
    rw [List.map_cons, List.map_append]
    exact Expression.depthAfter_group ih d []
  | @binary o l m t u _ _ ihl ihm =>
    rw [List.map_append, Expression.depthAfter_append, ihl, Option.bind_some, List.map_cons,
      Token.symbol, Expression.depthAfter_operator, ihm]
  | weaken _ ih => exact ih d

/-- A group in infix order has no operators side by side. -/
lemma hasRunAfter_group {l : List Token} (h : hasRunAfter false (l.map Token.symbol) = false)
    (after : Bool) (r : List Char) :
    hasRunAfter after ((Token.leftParen :: (l ++ [.rightParen])).map Token.symbol ++ r) =
      hasRunAfter false r := by
  have e : (Token.leftParen :: (l ++ [.rightParen])).map Token.symbol ++ r =
      '(' :: (l.map Token.symbol ++ ')' :: r) := by simp [Token.symbol]
  rw [e, Expression.hasRunAfter_group h]

/-- A list in infix order has no operators side by side and starts and ends with none. -/
lemma hasRunAfter_symbol (h : Infix n l t) (after : Bool) (r : List Char) :
    hasRunAfter after (l.map Token.symbol ++ r) = hasRunAfter false r := by
  induction h generalizing after r with
  | number => exact Expression.hasRunAfter_cons rfl after r
  | @call f l t _ ih =>
    have hl := ih false []
    rw [List.append_nil] at hl
    rw [List.map_cons, List.cons_append, Expression.hasRunAfter_cons rfl]
    exact hasRunAfter_group hl false r
  | @group l t _ ih =>
    have hl := ih false []
    rw [List.append_nil] at hl
    exact hasRunAfter_group hl after r
  | @binary o l m t u _ _ ihl ihm =>
    rw [List.map_append, List.append_assoc, ihl, List.map_cons, List.cons_append,
      Expression.hasRunAfter, Bool.false_and, Bool.false_or]
    exact ihm _ r
  | weaken _ ih => exact ih after r

lemma isAllowed_symbol (h : Infix n l t) : ∀ k ∈ l, isAllowed k.symbol := by
  have group {l : List Token} (ih : ∀ k ∈ l, isAllowed k.symbol) :
      ∀ k ∈ Token.leftParen :: (l ++ [.rightParen]), isAllowed k.symbol := by
    intro k hk
    simp only [List.mem_cons, List.mem_append, List.not_mem_nil, or_false] at hk
    rcases hk with rfl | hk | rfl
    · rfl
    · exact ih k hk
    · rfl
  induction h with
  | number => simp [Token.symbol, isAllowed]
  | call _ ih => exact List.forall_mem_cons.mpr ⟨rfl, group ih⟩
  | group _ ih => exact group ih
  | @binary o l m t u _ _ ihl ihm =>
    intro k hk
    rcases List.mem_append.mp hk with hk | hk
    · exact ihl k hk
    · rcases List.mem_cons.mp hk with rfl | hk
      · cases o <;> rfl
      · exact ihm k hk
  | weaken _ ih => exact ih

lemma mono {m : Nat} (h : Infix m l t) (hn : n ≤ m) : Infix n l t := by
  induction hn with
  | refl => exact h
  | step _ ih => exact ih h.weaken

/-- Operands that bind at least as strongly as an operator asks for. -/
lemma of_binary {o : Operator} {j k : Nat} {m : List Token} {u : Tree} (hl : Infix j l t)
    (hm : Infix k m u) (hj : o.leftLevel ≤ j) (hk : o.rightLevel ≤ k) (hn : n ≤ o.precedence) :
    Infix n (l ++ .operator o :: m) (.binary o t u) :=
  (Infix.binary (hl.mono hj) (hm.mono hk)).mono hn

/-- A subtraction from zero, as a minus without a left operand is written out. -/
lemma zero_subtract (h : Infix n l t) (hn : 2 ≤ n) :
    Infix 1 ([.number 0] ++ .operator .subtract :: l) (.binary .subtract (.number 0) t) :=
  Infix.number.of_binary h (by decide) hn (by decide)

lemma ne_nil (h : Infix n l t) : l ≠ [] := by
  induction h with
  | number => simp
  | call => simp
  | group => simp
  | binary => simp
  | weaken _ ih => exact ih

lemma alternates_group {l : List Token} (h : Alternates l) (hl : l ≠ []) :
    Alternates (.leftParen :: (l ++ [.rightParen])) where
  first a ha := by
    cases ha
    rfl
  last a ha := by
    rw [← List.cons_append, List.getLast?_concat] at ha
    cases ha
    rfl
  chain := by
    have hclose : (l ++ [Token.rightParen]).IsChain fun (a b : Token) =>
        b.beginsOperand = !a.endsOperand := by
      refine List.isChain_append.mpr ⟨h.chain, .singleton _, fun a ha b hb => ?_⟩
      cases hb
      rw [h.last a ha]
      rfl
    refine List.isChain_cons.mpr ⟨fun b hb => ?_, hclose⟩
    rw [List.head?_append_of_ne_nil l hl] at hb
    exact h.first b hb

/-- In a list in infix order operands and what stands between them take turns. -/
theorem alternates (h : Infix n l t) : Alternates l := by
  induction h with
  | @number x =>
    refine ⟨fun a ha => ?_, fun a ha => ?_, .singleton _⟩
    · cases ha
      rfl
    · cases ha
      rfl
  | @call f l t hl ih =>
    have hg := alternates_group ih hl.ne_nil
    refine ⟨fun a ha => ?_, fun a ha => hg.last a ?_, List.isChain_cons.mpr ⟨fun b hb => ?_, hg.chain⟩⟩
    · cases ha
      rfl
    · rwa [List.getLast?_cons_cons] at ha
    · cases hb
      rfl
  | group hl ih => exact alternates_group ih hl.ne_nil
  | @binary o l m t u hl hm ihl ihm =>
    refine ⟨fun a ha => ihl.first a ?_, fun a ha => ihm.last a ?_, ?_⟩
    · rwa [List.head?_append_of_ne_nil l hl.ne_nil] at ha
    · obtain ⟨b, m, rfl⟩ := List.exists_cons_of_ne_nil hm.ne_nil
      rwa [List.getLast?_append_of_ne_nil l (List.cons_ne_nil _ _), List.getLast?_cons_cons] at ha
    · refine List.isChain_append.mpr ⟨ihl.chain, List.isChain_cons.mpr ⟨ihm.first, ihm.chain⟩, ?_⟩
      intro a ha b hb
      cases hb
      rw [ihl.last a ha]
      rfl
  | weaken _ ih => exact ih

/-- A list in infix order has no numbers side by side. -/
lemma isChain (h : Infix n l t) : l.IsChain fun a b => ¬(a.isNumber ∧ b.isNumber) := by
  refine h.alternates.chain.imp fun a b hab => ?_
  rintro ⟨ha, hb⟩
  cases a <;> cases ha
  cases b <;> cases hb
  cases hab

end Infix

end Reckoner
