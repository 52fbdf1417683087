import Mathlib
import Reckoner.Proofs.Expression.Infix

/-!
# Bracketed expressions

An expression can be written with more brackets than it needs. A `Bracketed` expression is a tree that says for
each of its parts how many pairs of redundant brackets stand around it; the pairs that precedence and
associativity ask for are added when it is written. So the lists `tokens` of all bracketed expressions are all
ways to write trees (`infix_iff_exists_bracketed`), and reordering any of them gives the tree in post-order
(`ofTokens_tokens`).
-/

namespace Reckoner

/-- Whether a tree binds less than an operator, or no more than it if `equal`. -/
def Tree.bindsBelow (o : Operator) (equal : Bool) : Tree → Bool
  | .binary inner _ _ => inner.precedence < o.precedence || (equal && inner.precedence = o.precedence)
  | _ => false

/-- Whether a left operand needs brackets: it binds less than the operator, or the same where a chain of the
operator is grouped from the right. -/
def Operator.needsLeft (o : Operator) (t : Tree) : Bool :=
  t.bindsBelow o o.isRightAssociative

/-- Whether a right operand needs brackets: it binds less than the operator, or the same where a chain of the
operator is grouped from the left. -/
def Operator.needsRight (o : Operator) (t : Tree) : Bool :=
  t.bindsBelow o !o.isRightAssociative

/-- A tree with a number of redundant pairs of brackets around each of its parts. -/
inductive Bracketed where
  | number (redundant : Nat) (value : Float)
  | call (redundant : Nat) (f : Function) (argument : Bracketed)
  | binary (redundant : Nat) (o : Operator) (left right : Bracketed)

namespace Bracketed

/-- The tree without its brackets. -/
def tree : Bracketed → Tree
  | number _ x => .number x
  | call _ f argument => .call f argument.tree
  | binary _ o left right => .binary o left.tree right.tree

/-- Tokens in a number of pairs of brackets. -/
def enclosed : Nat → List Token → List Token
  | 0, l => l
  | n + 1, l => .leftParen :: (enclosed n l ++ [.rightParen])

/-- How many redundant pairs stand around the whole. -/
def redundant : Bracketed → Nat
  | number n _ | call n _ _ | binary n _ _ _ => n

/-- The tokens without the redundant pairs around the whole. The argument of a function is always in brackets, an
operand only where it needs them. -/
def inside : Bracketed → List Token
  | number _ x => [.number x]
  | call _ f argument => .function f :: enclosed (argument.redundant + 1) argument.inside
  | binary _ o left right =>
    enclosed (left.redundant + (o.needsLeft left.tree).toNat) left.inside ++
      .operator o :: enclosed (right.redundant + (o.needsRight right.tree).toNat) right.inside

/-- The tokens that write the tree with all these brackets. -/
def tokens (b : Bracketed) : List Token :=
  enclosed b.redundant b.inside

/-- The same expression with another number of redundant pairs around the whole. -/
def withRedundant (n : Nat) : Bracketed → Bracketed
  | number _ x => number n x
  | call _ f argument => call n f argument
  | binary _ o left right => binary n o left right

@[simp] lemma tree_withRedundant (n : Nat) (b : Bracketed) : (b.withRedundant n).tree = b.tree := by
  cases b <;> rfl

@[simp] lemma inside_withRedundant (n : Nat) (b : Bracketed) : (b.withRedundant n).inside = b.inside := by
  cases b <;> rfl

@[simp] lemma redundant_withRedundant (n : Nat) (b : Bracketed) : (b.withRedundant n).redundant = n := by
  cases b <;> rfl

end Bracketed

/-- How strongly a tree binds when there are no brackets around it. -/
def Tree.level : Tree → Nat
  | .binary o _ _ => o.precedence
  | _ => 4

lemma Tree.one_le_level (t : Tree) : 1 ≤ t.level := by
  cases t with
  | binary o l r => cases o <;> simp [level, Operator.precedence]
  | number x => simp [level]
  | call f t => simp [level]

lemma Tree.bindsBelow_iff {o : Operator} {equal : Bool} {t : Tree} :
    t.bindsBelow o equal = true ↔ t.level < o.precedence + equal.toNat := by
  have hatom : ¬4 < o.precedence + equal.toNat := by
    cases o <;> cases equal <;> decide
  cases t with
  | binary inner l r => cases o <;> cases inner <;> cases equal <;> simp [bindsBelow, level, Operator.precedence]
  | number x => simpa [bindsBelow, level] using hatom
  | call f t => simpa [bindsBelow, level] using hatom

/-- An operand needs brackets exactly if it binds less than the level that is asked for. -/
lemma Operator.needsLeft_iff {o : Operator} {t : Tree} : o.needsLeft t = true ↔ t.level < o.leftLevel := by
  rw [needsLeft, Tree.bindsBelow_iff, leftLevel]
  cases o.isRightAssociative <;> rfl

lemma Operator.needsRight_iff {o : Operator} {t : Tree} : o.needsRight t = true ↔ t.level < o.rightLevel := by
  rw [needsRight, Tree.bindsBelow_iff, rightLevel]
  cases o.isRightAssociative <;> rfl

lemma Operator.leftLevel_le (o : Operator) : o.leftLevel ≤ 4 := by
  cases o <;> decide

lemma Operator.rightLevel_le (o : Operator) : o.rightLevel ≤ 4 := by
  cases o <;> decide

namespace Bracketed

open Postfix (reorder_eq_postorder)

lemma infix_enclosed {n : Nat} {l : List Token} {t : Tree} (h : Infix n l t) (hn : 1 ≤ n) (k : Nat) :
    Infix (if k = 0 then n else 4) (enclosed k l) t := by
  induction k with
  | zero => exact h
  | succ k ih =>
    rw [if_neg (Nat.succ_ne_zero k)]
    refine .group (ih.mono ?_)
    split <;> omega

/-- An operand in the brackets that it needs binds as strongly as is asked for. -/
lemma infix_operand {level : Nat} {needs : Bool} {l : List Token} {t : Tree} (h : Infix t.level l t)
    (hneeds : needs = true ↔ t.level < level) (hlevel : level ≤ 4) (k : Nat) :
    Infix level (enclosed (k + needs.toNat) l) t := by
  have he := infix_enclosed h t.one_le_level (k + needs.toNat)
  split at he
  · next hk =>
    have hn : needs = false := by
      cases needs with
      | false => rfl
      | true => simp at hk
    refine he.mono ?_
    rw [hn] at hneeds
    simpa using hneeds
  · exact he.mono hlevel

lemma infix_inside (b : Bracketed) : Infix b.tree.level b.inside b.tree := by
  induction b with
  | number n x => exact .number
  | call n f argument ih =>
    have ha := infix_enclosed ih argument.tree.one_le_level argument.redundant
    refine .call (ha.mono ?_)
    split
    · exact argument.tree.one_le_level
    · decide
  | binary n o left right ihl ihr =>
    exact .binary (infix_operand ihl Operator.needsLeft_iff o.leftLevel_le _)
      (infix_operand ihr Operator.needsRight_iff o.rightLevel_le _)

lemma infix_tokens (b : Bracketed) : Infix 1 b.tokens b.tree := by
  refine (infix_enclosed b.infix_inside b.tree.one_le_level b.redundant).mono ?_
  split
  · exact b.tree.one_le_level
  · decide

/-- How strongly the tokens of a bracketed expression bind. -/
def level (b : Bracketed) : Nat :=
  if b.redundant = 0 then b.tree.level else 4

/-- What binds strongly enough has the brackets that it needs: if it needs any, one of its pairs is not
redundant. -/
lemma exists_operand {level : Nat} {needs : Bool} {b : Bracketed} (hneeds : needs = true ↔ b.tree.level < level)
    (h : level ≤ b.level) :
    ∃ b' : Bracketed, b'.tree = b.tree ∧ b'.inside = b.inside ∧ b'.redundant + needs.toNat = b.redundant := by
  refine ⟨b.withRedundant (b.redundant - needs.toNat), by simp, by simp, ?_⟩
  rw [redundant_withRedundant]
  cases needs with
  | false => rfl
  | true =>
    have hlt := hneeds.mp rfl
    rw [Bracketed.level] at h
    split at h
    · omega
    · next hne => exact Nat.sub_add_cancel (Nat.one_le_iff_ne_zero.mpr hne)

lemma exists_of_infix {n : Nat} {l : List Token} {t : Tree} (h : Infix n l t) :
    ∃ b : Bracketed, b.tree = t ∧ b.tokens = l ∧ n ≤ b.level := by
  induction h with
  | @number x => exact ⟨.number 0 x, rfl, rfl, le_rfl⟩
  | @call f l t _ ih =>
    obtain ⟨b, rfl, rfl, -⟩ := ih
    exact ⟨.call 0 f b, rfl, rfl, le_rfl⟩
  | @group l t _ ih =>
    obtain ⟨b, rfl, rfl, -⟩ := ih
    refine ⟨b.withRedundant (b.redundant + 1), by simp, ?_, ?_⟩
    · rw [tokens, redundant_withRedundant, inside_withRedundant]
      rfl
    · rw [level, redundant_withRedundant, if_neg (Nat.succ_ne_zero _)]
  | @binary o l m t u _ _ ihl ihm =>
    obtain ⟨b, rfl, rfl, hb⟩ := ihl
    obtain ⟨c, rfl, rfl, hc⟩ := ihm
    obtain ⟨b', hbt, hbi, hbn⟩ := exists_operand Operator.needsLeft_iff hb
    obtain ⟨c', hct, hci, hcn⟩ := exists_operand Operator.needsRight_iff hc
    refine ⟨.binary 0 o b' c', ?_, ?_, le_rfl⟩
    · rw [tree, hbt, hct]
    · change enclosed _ b'.inside ++ .operator o :: enclosed _ c'.inside = _
      rw [hbt, hct, hbi, hci, hbn, hcn]
      rfl
  | weaken _ ih =>
    obtain ⟨b, ht, hl, hn⟩ := ih
    exact ⟨b, ht, hl, by omega⟩

/-- The lists that write a tree in infix order are those with the brackets that the tree needs and any number of
others. -/
theorem infix_iff_exists_bracketed {l : List Token} {t : Tree} :
    Infix 1 l t ↔ ∃ b : Bracketed, b.tree = t ∧ b.tokens = l := by
  constructor
  · intro h
    obtain ⟨b, ht, hl, -⟩ := exists_of_infix h
    exact ⟨b, ht, hl⟩
  · rintro ⟨b, rfl, rfl⟩
    exact b.infix_tokens

/-- Whatever brackets a tree is written with, reordering its tokens gives the tree in post-order. -/
theorem ofTokens_tokens (b : Bracketed) : Postfix.ofTokens b.tokens = .ok b.tree.postorder :=
  reorder_eq_postorder b.infix_tokens

end Bracketed

end Reckoner
