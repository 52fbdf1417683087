import Mathlib
import Reckoner.Proofs.Expression.Infix
import Reckoner.Proofs.Expression.Minus

/-!
# Operands and operators

A list of tokens that has a value has one number more than it has operators: reordering loses nothing but
parentheses (`reorder_perm`), and running uses up a value for every operator (`run_length`). The same
count can be read off the chunks before the pass for unary minus. There it is one, less the number of
chunks that stand where they cannot: a closing parenthesis or an operator that has no value before it, or
the end of the list (`countP_subtractFromZero`). The invariant of the pass is that as many values are
complete as the last chunk ends, which is one or none. So a list with a value has no such `faults`.
-/

namespace Reckoner

namespace Token

/-- The tokens of a list that are no parentheses. -/
def withoutGroups (l : List Token) : List Token :=
  l.filter fun
    | leftParen => false
    | rightParen => false
    | _ => true

/-- Whether a token is an operator. -/
def isOperator : Token → Bool
  | operator _ => true
  | _ => false

lemma withoutGroups_append (l m : List Token) :
    withoutGroups (l ++ m) = withoutGroups l ++ withoutGroups m :=
  List.filter_append ..

end Token

namespace Postfix

open Waiting (group)
open Token (withoutGroups withoutGroups_append)

/-- What waits above an open group comes out as it is. -/
lemma withoutGroups_map_token {stack : List Waiting} (h : group ∉ stack) :
    withoutGroups (stack.map Waiting.token) = stack.map Waiting.token := by
  rw [withoutGroups, List.filter_eq_self]
  intro t ht
  obtain ⟨w, hw, rfl⟩ := List.mem_map.mp ht
  cases w with
  | group => exact absurd hw h
  | operator o => rfl
  | function f => rfl

lemma withoutGroups_ownerOfGroup (stack : List Waiting) :
    (ownerOfGroup stack).1 ++ withoutGroups ((ownerOfGroup stack).2.map Waiting.token) =
      withoutGroups (stack.map Waiting.token) := by
  cases stack with
  | nil => rfl
  | cons w stack => cases w <;> rfl

/-- Reordering loses no token but the parentheses and adds none. -/
theorem reorder_perm {stack : List Waiting} {tokens l : List Token}
    (h : reorder stack tokens = .ok l) :
    l.Perm (withoutGroups (stack.map Waiting.token) ++ withoutGroups tokens) := by
  induction tokens generalizing stack l with
  | nil =>
    rw [reorder_nil] at h
    split at h
    · cases h
    · next hn =>
      cases h
      rw [withoutGroups_map_token hn]
      exact .of_eq (List.append_nil _).symm
  | cons token tokens ih =>
    cases token with
    | number x =>
      rw [reorder_number, Outcome.bind_eq_ok] at h
      obtain ⟨l, hl, ⟨⟩⟩ := h
      exact (List.Perm.cons _ (ih hl)).trans List.perm_middle.symm
    | operator o =>
      rw [reorder_operator, Outcome.bind_eq_ok] at h
      obtain ⟨l, hl, ⟨⟩⟩ := h
      have hn : group ∉ stack.takeWhile (·.yieldsTo o) := fun hm =>
        Bool.false_ne_true (List.mem_takeWhile_imp hm)
      have hs : withoutGroups (stack.map Waiting.token) =
          (stack.takeWhile (·.yieldsTo o)).map Waiting.token ++
            withoutGroups ((stack.dropWhile (·.yieldsTo o)).map Waiting.token) := by
        rw [← withoutGroups_map_token hn, ← withoutGroups_append, ← List.map_append,
          List.takeWhile_append_dropWhile]
      -- The operators that come out stay in front; the new one waits in their place.
      rw [hs, List.append_assoc]
      exact ((ih hl).trans List.perm_middle.symm).append_left _
    | function f =>
      rw [reorder_function] at h
      split at h
      · exact (ih h).trans List.perm_middle.symm
      · cases h
    | leftParen =>
      rw [reorder_leftParen] at h
      have ih := ih h
      exact ih
    | rightParen =>
      by_cases hm : group ∈ stack
      · obtain ⟨inside, below, rfl, hn⟩ := List.eq_append_cons_of_mem hm
        rw [reorder_rightParen hn, Outcome.bind_eq_ok] at h
        obtain ⟨l, hl, ⟨⟩⟩ := h
        have hs : withoutGroups ((inside ++ group :: below).map Waiting.token) =
            inside.map Waiting.token ++ withoutGroups (below.map Waiting.token) := by
          rw [List.map_append, withoutGroups_append, withoutGroups_map_token hn]
          rfl
        rw [hs, ← withoutGroups_ownerOfGroup below, List.append_assoc, List.append_assoc,
          List.append_assoc]
        exact ((ih hl).append_left _).append_left _
      · rw [reorder_rightParen_of_notMem hm] at h
        cases h
    | unknown text => cases h

/-- Running leaves a value for every number that no operator has used. -/
theorem run_length {stack result : List Float} {tokens : List Token}
    (h : run stack tokens = .ok result) :
    result.length + tokens.countP Token.isOperator =
      stack.length + tokens.countP Token.isNumber := by
  induction tokens generalizing stack with
  | nil =>
    cases h
    rfl
  | cons token tokens ih =>
    rw [run_cons, Outcome.bind_eq_ok] at h
    obtain ⟨next, hs, hr⟩ := h
    have ih := ih hr
    cases token with
    | number x =>
      cases hs
      rw [List.countP_cons_of_neg (by rintro ⟨⟩), List.countP_cons_of_pos rfl]
      rw [List.length_cons] at ih
      omega
    | operator o =>
      match stack, hs with
      | right :: left :: stack, hs =>
        obtain ⟨x, -, ⟨⟩⟩ := Outcome.bind_eq_ok.mp hs
        rw [List.countP_cons_of_pos rfl, List.countP_cons_of_neg (by rintro ⟨⟩)]
        simp only [List.length_cons] at ih ⊢
        omega
    | function f =>
      match stack, hs with
      | x :: stack, hs =>
        obtain ⟨y, -, ⟨⟩⟩ := Outcome.bind_eq_ok.mp hs
        rwa [List.countP_cons_of_neg (by rintro ⟨⟩), List.countP_cons_of_neg (by rintro ⟨⟩)]
    | leftParen => cases hs
    | rightParen => cases hs
    | unknown text => cases hs

/-- A list of tokens with one value has a number more than operators. -/
theorem countP_of_run {tokens l : List Token} {x : Float} (hl : reorder [] tokens = .ok l)
    (hx : run [] l = .ok [x]) :
    tokens.countP Token.isNumber = tokens.countP Token.isOperator + 1 := by
  have hp := reorder_perm hl
  have count (p : Token → Bool) (hp₁ : p .leftParen = false) (hp₂ : p .rightParen = false) :
      l.countP p = tokens.countP p := by
    rw [hp.countP_eq, List.map_nil, withoutGroups, List.filter_nil, List.nil_append, withoutGroups,
      List.countP_filter]
    refine List.countP_congr fun t _ => ?_
    cases t <;> simp [hp₁, hp₂]
  have := run_length hx
  rw [count _ rfl rfl, count _ rfl rfl, List.length_singleton, List.length_nil] at this
  omega

/-- In a list that can be reordered every function is applied to a group. -/
theorem isChain_of_reorder {stack : List Waiting} {tokens l : List Token}
    (h : reorder stack tokens = .ok l) :
    tokens.IsChain fun a b => (∃ f, a = .function f) → b = .leftParen := by
  induction tokens generalizing stack l with
  | nil => exact .nil
  | cons token tokens ih =>
    cases token with
    | number x =>
      obtain ⟨l, hl, -⟩ := Outcome.bind_eq_ok.mp ((reorder_number ..).symm.trans h)
      exact List.isChain_cons.mpr ⟨fun b _ => by simp, ih hl⟩
    | operator o =>
      obtain ⟨l, hl, -⟩ := Outcome.bind_eq_ok.mp ((reorder_operator ..).symm.trans h)
      exact List.isChain_cons.mpr ⟨fun b _ => by simp, ih hl⟩
    | function f =>
      rw [reorder_function] at h
      split at h
      · next ho =>
        refine List.isChain_cons.mpr ⟨fun b hb _ => ?_, ih h⟩
        cases tokens with
        | nil => cases hb
        | cons t tokens =>
          cases hb
          cases b <;> first | rfl | cases ho
      · cases h
    | leftParen =>
      rw [reorder_leftParen] at h
      exact List.isChain_cons.mpr ⟨fun b _ => by simp, ih h⟩
    | rightParen =>
      by_cases hm : group ∈ stack
      · obtain ⟨inside, below, rfl, hn⟩ := List.eq_append_cons_of_mem hm
        rw [reorder_rightParen hn, Outcome.bind_eq_ok] at h
        obtain ⟨l, hl, -⟩ := h
        exact List.isChain_cons.mpr ⟨fun b _ => by simp, ih hl⟩
      · rw [reorder_rightParen_of_notMem hm] at h
        cases h
    | unknown text => cases h

end Postfix

namespace Chunk

/-- Whether a chunk ends an operand. -/
def isValue (k : Chunk) : Bool :=
  k.isNumber || k = mark ')'

/-- Whether a chunk begins an operand. -/
def isOpening (k : Chunk) : Bool :=
  k.isNumber || k.isName || k = mark '('

/-- Chunks that are not two operands side by side. -/
def Parted (j k : Chunk) : Prop :=
  ¬(j.isValue ∧ k.isOpening)

/-- Chunks that are no operands side by side, once the signs of products are written. -/
lemma parted_of {j k : Chunk} (hj : ¬Expression.isJuxtaposition j k)
    (hn : ¬(j.isNumber ∧ k.isNumber)) : Parted j k := by
  rintro ⟨hv, ho⟩
  cases j <;> cases k <;>
    simp_all [isValue, isOpening, Expression.isJuxtaposition, isNumber, isName]

/-- A product without a sign is one of a value and an operand. -/
lemma of_isJuxtaposition {j k : Chunk} (h : Expression.isJuxtaposition j k) :
    j.isValue ∧ k.isOpening := by
  cases j <;> cases k <;>
    simp_all [isValue, isOpening, Expression.isJuxtaposition, isNumber, isName]

/-- Where the signs of products are written, no operands are side by side. -/
lemma isChain_insertTimes {l : List Chunk} (h : Apart l) :
    (Expression.insertTimes l).IsChain Parted := by
  fun_induction Expression.insertTimes l with
  | case1 j k l _ ih =>
    obtain ⟨r, e⟩ := insertTimes_cons k l
    have ih := ih h.tail
    rw [e] at ih ⊢
    refine List.isChain_cons_cons.mpr ⟨?_, List.isChain_cons_cons.mpr ⟨?_, ih⟩⟩
    · exact fun h => Bool.false_ne_true h.2
    · exact fun h => Bool.false_ne_true h.1
  | case2 j k l hj ih =>
    obtain ⟨r, e⟩ := insertTimes_cons k l
    have ih := ih h.tail
    rw [e] at ih ⊢
    exact List.isChain_cons_cons.mpr ⟨parted_of hj (List.isChain_cons_cons.mp h).1, ih⟩
  | case3 l hl =>
    cases l with
    | nil => exact .nil
    | cons j l =>
      cases l with
      | nil => exact .singleton j
      | cons k l => exact absurd rfl (hl j k l)

end Chunk

namespace Expression

open Chunk (mark name number outline Parted)

/-- Whether a chunk stands where it cannot: a closing parenthesis or an operator that has no value before
it and is no minus that becomes a subtraction. -/
def isMisplaced (previous : Option Chunk) (k : Chunk) : Bool :=
  !previous.any (·.isValue) && (k = mark ')' ||
    k.isOperator && !(k = mark '-' && previous.all fun j => j = mark '(' || j.isOperator))

/-- The number of chunks that stand where they cannot, and of ends. -/
def faults : Option Chunk → List Chunk → Nat
  | previous, [] => (!previous.any (·.isValue)).toNat
  | previous, k :: l => (isMisplaced previous k).toNat + faults (some k) l

/-- Nothing is written before a chunk that is no minus. -/
lemma opening_of_ne {k : Chunk} (h : k ≠ mark '-') (previous : Option Chunk) (l : List Chunk) :
    opening previous k l = [] := by
  have hl : ¬IsLeading previous k := fun hl => h hl.1
  have hg : groupedOperand? previous k l = none := if_neg fun hk => h hk.1
  rw [opening, if_neg hl, hg]
  rfl

/-- A zero is written before a minus where an operator or a list of its own can start, and nothing
elsewhere. -/
lemma countP_opening_minus {previous : Option Chunk} {l : List Chunk} (hl : ∀ k ∈ l, k.Proper)
    (ht : previous.any (·.isOperator) → StartsOperand (outline l)) :
    (opening previous (mark '-') l).countP Chunk.isNumber =
      (previous.all fun j => j = mark '(' || j.isOperator).toNat := by
  cases previous with
  | none => rfl
  | some j =>
    rw [opening, Option.all_some]
    by_cases hj : j = mark '('
    · subst hj
      rfl
    · have hi : ¬IsLeading (some j) (mark '-') := by
        rintro ⟨-, hp | hp⟩
        · cases hp
        · exact hj (Option.some.inj hp)
      rw [if_neg hi, groupedOperand?]
      cases ho : j.isOperator with
      | true =>
        have hs := (startsOperand_iff hl).mp (ht ho)
        simp [hj, ho, hs, Chunk.isNumber]
      | false => simp [hj, ho]

lemma isOperator_of_isValue {k : Chunk} (h : k.isValue) : k.isOperator = false := by
  cases k with
  | mark c =>
    have hc : c = ')' := by simpa [Chunk.isValue, Chunk.isNumber] using h
    rw [hc]
    rfl
  | number d => rfl
  | name s => rfl

lemma mark_cases {c : Char} (hk : (mark c).Proper) (ha : isAllowed c) :
    c = '(' ∨ c = ')' ∨ isOperatorChar c := by
  cases hk with
  | mark h₁ h₂ h₃ => simpa [isAllowed, Char.isAlphanum, h₁, h₂, h₃, or_comm, or_left_comm] using ha

/-- Only closing parentheses and operators can stand where they cannot. -/
lemma isMisplaced_of_ne {k : Chunk} (hk : k ≠ mark ')') (ho : k.isOperator = false)
    (previous : Option Chunk) : isMisplaced previous k = false := by
  simp [isMisplaced, hk, ho]

/-- An operator uses up the value before it or the zero that is written for it, or it is a fault. -/
lemma countP_opening_operator {previous : Option Chunk} {c : Char} {l : List Chunk}
    (ho : (mark c).isOperator) (hl : ∀ k ∈ l, k.Proper)
    (ht : previous.any (·.isOperator) → c = '-' ∧ StartsOperand (outline l)) :
    (opening previous (mark c) l).countP Chunk.isNumber + (isMisplaced previous (mark c)).toNat +
        (previous.any (·.isValue)).toNat = 1 := by
  by_cases hm : c = '-'
  · subst hm
    rw [countP_opening_minus hl fun h => (ht h).2, isMisplaced]
    cases previous with
    | none => rfl
    | some j =>
      cases hj : j.isValue with
      | true =>
        have hp : j ≠ mark '(' := by rintro rfl; cases hj
        simp [hj, hp, isOperator_of_isValue hj, ho]
      | false =>
        simp only [Option.any_some, Option.all_some, hj, ho]
        cases decide (j = mark '(') <;> cases j.isOperator <;> rfl
  · have hm : mark c ≠ mark '-' := by simpa using hm
    have hc : mark c ≠ mark ')' := by rintro ⟨⟩; cases ho
    rw [opening_of_ne hm, isMisplaced, ho]
    cases previous.any (·.isValue) <;> simp [hm, hc]

/-- A chunk that is in its place completes a value if it ends one, and uses up the one before it if it
is an operator; one that is not is made up for. -/
lemma countP_opening {previous : Option Chunk} {k : Chunk} {l : List Chunk}
    (hk : k.Proper) (ha : isAllowed k.symbol) (hl : ∀ k ∈ l, k.Proper)
    (ht : previous.any (·.isOperator) → isOperatorChar k.symbol →
      k.symbol = '-' ∧ StartsOperand (outline l))
    (hp : ∀ j ∈ previous, Parted j k) :
    (opening previous k l).countP Chunk.isNumber + (isMisplaced previous k).toNat +
        (previous.any (·.isValue)).toNat + k.isNumber.toNat =
      k.isOperator.toNat + k.isValue.toNat := by
  have operand (ho : k.isOpening) : previous.any (·.isValue) = false := by
    cases previous with
    | none => rfl
    | some j => simpa [Parted, ho] using hp j rfl
  cases k with
  | number d => rw [opening_of_ne (by simp), operand rfl, isMisplaced_of_ne (by simp) rfl]; rfl
  | name s => rw [opening_of_ne (by simp), operand rfl, isMisplaced_of_ne (by simp) rfl]; rfl
  | mark c =>
    obtain rfl | rfl | ho := mark_cases hk ha
    · rw [opening_of_ne (by simp), operand rfl, isMisplaced_of_ne (by simp) rfl]
      rfl
    · rw [opening_of_ne (by simp), isMisplaced]
      cases previous.any (·.isValue) <;> rfl
    · have ho : (mark c).isOperator := ho
      have hv : (mark c).isValue = false := by
        cases hv : (mark c).isValue with
        | false => rfl
        | true => rw [isOperator_of_isValue hv] at ho; cases ho
      rw [countP_opening_operator ho hl fun h => ht h ho, ho, hv]
      rfl

/-- No operator is written before a chunk. -/
lemma countP_operator_opening (previous : Option Chunk) (k : Chunk) (l : List Chunk) :
    (opening previous k l).countP Chunk.isOperator = 0 := by
  rw [List.countP_eq_zero]
  intro j hj
  obtain rfl | rfl := proper_opening j hj <;> exact Bool.false_ne_true

lemma countP_closings (p : Chunk → Bool) (hp : p (mark ')') = false) (k : Nat)
    (pending : List Nat) : (closings k pending).countP p = 0 := by
  rw [List.countP_eq_zero]
  intro j hj
  rw [List.eq_of_mem_replicate hj, hp]
  exact Bool.false_ne_true

/-- The pass for unary minus writes one number more than operators, less the faults before it. -/
theorem countP_subtractFromZero {previous : Option Chunk} {pending : List Nat} {l : List Chunk}
    (hl : ∀ k ∈ l, k.Proper) (ha : ∀ k ∈ l, isAllowed k.symbol)
    (ht : Tidy (previous.any (·.isOperator)) (outline l))
    (hp : (previous.toList ++ l).IsChain Parted) :
    (subtractFromZero previous pending l).countP Chunk.isNumber + faults previous l +
        (previous.any (·.isValue)).toNat =
      (subtractFromZero previous pending l).countP Chunk.isOperator + 1 := by
  induction l generalizing previous pending with
  | nil =>
    rw [subtractFromZero, faults]
    cases previous.any (·.isValue) <;> rfl
  | cons k l ih =>
    obtain ⟨hk, hl⟩ := List.forall_mem_cons.mp hl
    obtain ⟨hka, ha⟩ := List.forall_mem_cons.mp ha
    obtain ⟨hkt, ht⟩ := ht
    rw [isOperatorChar_symbol] at ht
    have hp' : (k :: l).IsChain Parted := (List.isChain_append.mp hp).2.1
    have hj : ∀ j ∈ previous, Parted j k := by
      rintro j rfl
      exact (List.isChain_cons_cons.mp hp).1
    have ih := @ih (some k) ((groupedOperand? previous k l).toList ++ advance 1 pending) hl ha ht hp'
    have hc := countP_opening hk hka hl hkt hj
    have count (p : Chunk → Bool) (hp : p (mark ')') = false) :
        (subtractFromZero previous pending (k :: l)).countP p =
          (opening previous k l).countP p + (p k).toNat +
            (subtractFromZero (some k) ((groupedOperand? previous k l).toList ++ advance 1 pending)
              l).countP p := by
      have hk : (if p k = true then 1 else 0) = (p k).toNat := by cases p k <;> rfl
      rw [subtractFromZero_cons, List.countP_append, List.countP_cons, List.countP_append,
        countP_closings p hp, hk]
      omega
    -- What is written before the chunk and the chunk itself keep the balance of the rest.
    rw [count _ rfl, count _ rfl, countP_operator_opening, faults]
    rw [Option.any_some] at ih
    omega

/-- What begins an operand is in its place everywhere. -/
lemma isMisplaced_of_isOpening {k : Chunk} (h : k.isOpening) (previous : Option Chunk) :
    isMisplaced previous k = false := by
  refine isMisplaced_of_ne ?_ ?_ previous
  · rintro rfl
    cases h
  · cases k with
    | mark c =>
      have hc : c = '(' := by simpa [Chunk.isOpening, Chunk.isNumber, Chunk.isName] using h
      rw [hc]
      rfl
    | number d => rfl
    | name s => rfl

lemma isMisplaced_of_isValue {previous : Option Chunk} (h : previous.any (·.isValue)) (k : Chunk) :
    isMisplaced previous k = false := by
  rw [isMisplaced, h]
  rfl

/-- The sign of a product hides no fault and makes none. -/
theorem faults_insertTimes (previous : Option Chunk) (l : List Chunk) :
    faults previous (insertTimes l) = faults previous l := by
  fun_induction insertTimes l generalizing previous with
  | case1 j k l h ih =>
    obtain ⟨hj, hk⟩ := Chunk.of_isJuxtaposition h
    have hs : isMisplaced (some j) (mark '*') = false := @isMisplaced_of_isValue (some j) hj _
    rw [faults, faults, ih, faults, faults, faults, hs, isMisplaced_of_isOpening hk,
      isMisplaced_of_isOpening hk]
    simp
  | case2 j k l _ ih =>
    rw [faults, ih]
    rfl
  | case3 l => rfl

end Expression

end Reckoner
