import Mathlib
import Reckoner.Proofs.Expression.Grammar
import Reckoner.Proofs.Expression.Group
import Reckoner.Proofs.Expression.Infix
import Reckoner.Proofs.Expression.Stages

/-!
# Expressions with every sign written

`Explicit` is the grammar of expressions over chunks, without constants and with the sign of every
product. The pass that turns unary minus into subtraction works on such a list block by block. A block
`Becomes` what the pass makes of it in any list that it is part of, whatever countdowns reach beyond it;
blocks that follow each other may be taken together (`Becomes.append`). By induction over the grammar,
what becomes of an explicit expression is a list of tokens in infix order with the same tree
(`exists_becomes`).
-/

namespace Reckoner

namespace Expression

open Chunk (mark name number outline outline_nil outline_cons outline_append)

/-- Countdowns that all go on close nothing. -/
lemma closings_of_lt {k : Nat} {pending : List Nat} (h : ∀ n ∈ pending, k < n) :
    closings k pending = [] := by
  have hk : k ∉ pending := fun hm => Nat.lt_irrefl k (h k hm)
  rw [closings, List.count_eq_zero.mpr hk]
  rfl

/-- Countdowns that go on for some chunks and then for some more. -/
lemma advance_advance (j k : Nat) (pending : List Nat) :
    advance k (advance j pending) = advance (j + k) pending := by
  induction pending with
  | nil => rfl
  | cons n pending ih =>
    simp only [advance] at ih ⊢
    by_cases hj : j < n
    · by_cases hk : j + k < n
      · have : k < n - j := by omega
        simp [hj, hk, this, ih, Nat.sub_sub]
      · have : ¬k < n - j := by omega
        simp [hj, hk, this, ih]
    · have : ¬j + k < n := by omega
      simp [hj, this, ih]

/-- Countdowns that end some chunks later. -/
lemma closings_advance {k : Nat} (hk : 0 < k) (j : Nat) (pending : List Nat) :
    closings k (advance j pending) = closings (j + k) pending := by
  have h : (advance j pending).count k = pending.count (j + k) := by
    induction pending with
    | nil => rfl
    | cons n pending ih =>
      simp only [advance] at ih ⊢
      by_cases hj : j < n
      · have : n - j = k ↔ n = j + k := by omega
        simp [hj, ih, List.count_cons, this]
      · have : n ≠ j + k := by omega
        simp [hj, ih, this]
  rw [closings, closings, h]

/-- What the pass makes of a block of a list: after a chunk that `fits`, before a list that may `follow`,
with countdowns that reach to its end or beyond. -/
def Becomes (fits : Option Chunk → Prop) (follow : List Chunk → Prop) (l r : List Chunk) : Prop :=
  ∀ previous pending rest, fits previous → follow rest → (∀ n ∈ pending, l.length ≤ n) →
    subtractFromZero previous pending (l ++ rest) =
      r ++ (closings l.length pending ++
        subtractFromZero l.getLast? (advance l.length pending) rest)

/-- Two blocks that follow each other. -/
lemma Becomes.append {fits fits' : Option Chunk → Prop} {follow follow' : List Chunk → Prop}
    {l m r s : List Chunk} (hl : Becomes fits follow l r) (hm : Becomes fits' follow' m s)
    (h₀ : m ≠ []) (hf : fits' l.getLast?) (hw : ∀ rest, follow' rest → follow (m ++ rest)) :
    Becomes fits follow' (l ++ m) (r ++ s) := by
  intro previous pending rest hp hr hn
  have hpos : 0 < m.length := List.length_pos_iff.mpr h₀
  have hl' : ∀ n ∈ pending, l.length < n := by
    intro n hm
    have := hn n hm
    rw [List.length_append] at this
    omega
  have hm' : ∀ n ∈ advance l.length pending, m.length ≤ n := by
    intro n hm
    have := hn _ (mem_advance hm).2
    rw [List.length_append] at this
    omega
  rw [List.append_assoc, hl previous pending (m ++ rest) hp (hw rest hr) fun n hm => (hl' n hm).le,
    closings_of_lt hl', List.nil_append, hm _ _ rest hf hr hm', closings_advance hpos,
    advance_advance, List.length_append, List.getLast?_append_of_ne_nil l h₀, List.append_assoc]

lemma becomes_chunk {k : Chunk} (h : k ≠ mark '-') :
    Becomes (fun _ => True) (fun _ => True) [k] [k] :=
  fun _ pending rest _ _ _ => subtractFromZero_cons_of_value (.inl h) pending rest

lemma Becomes.mono {fits fits' : Option Chunk → Prop} {follow follow' : List Chunk → Prop}
    {l r : List Chunk} (h : Becomes fits follow l r) (hf : ∀ p, fits' p → fits p)
    (hw : ∀ rest, follow' rest → follow rest) : Becomes fits' follow' l r :=
  fun previous pending rest hp hr hn => h previous pending rest (hf _ hp) (hw _ hr) hn

/-- A chunk behind an operand stays as it is. -/
lemma becomes_operator (k : Chunk) :
    Becomes (fun p => ∃ j, p = some j ∧ j ≠ mark '(' ∧ j.isOperator = false) (fun _ => True)
      [k] [k] :=
  fun _ pending rest hp _ _ => subtractFromZero_cons_of_value (.inr hp) pending rest

/-- A minus at the start gets a zero before it. -/
lemma becomes_leading :
    Becomes (fun p => p = none ∨ p = some (mark '(')) (fun _ => True) [mark '-']
      [number ['0'], mark '-'] := by
  intro previous pending rest hp _ _
  have hg : groupedOperand? previous (mark '-') rest = none := by
    rw [groupedOperand?, if_neg]
    rintro ⟨-, ho⟩
    obtain rfl | rfl := hp <;> cases ho
  rw [List.singleton_append, subtractFromZero_cons, opening, if_pos ⟨rfl, hp⟩, hg]
  rfl

/-- A minus behind an operator gets a group with its operand. -/
lemma becomes_grouped {l r : List Chunk} {follow : List Chunk → Prop}
    (hl : Becomes (fun _ => True) follow l r) (h₀ : l ≠ [])
    (ho : ∀ rest, follow rest → operandLength? (l ++ rest) = some l.length) :
    Becomes (fun p => p.any (·.isOperator)) follow (mark '-' :: l)
      (mark '(' :: number ['0'] :: mark '-' :: (r ++ [mark ')'])) := by
  intro previous pending rest hp hr hn
  have hpos : 0 < l.length := List.length_pos_iff.mpr h₀
  have hi : ¬IsLeading previous (mark '-') := by
    rintro ⟨-, rfl | rfl⟩ <;> cases hp
  have hg : groupedOperand? previous (mark '-') (l ++ rest) = some l.length := by
    rw [groupedOperand?, if_pos ⟨rfl, hp⟩, ho rest hr]
  -- A countdown from before the minus reaches to the end of the operand, so none ends at the minus.
  have h₁ : closings 1 pending = [] := closings_of_lt fun n hm => by
    have := hn n hm
    rw [List.length_cons] at this
    omega
  have hm : ∀ n ∈ l.length :: advance 1 pending, l.length ≤ n := by
    refine List.forall_mem_cons.mpr ⟨le_rfl, fun n hm => ?_⟩
    have := hn _ (mem_advance hm).2
    rw [List.length_cons] at this
    omega
  -- The new countdown ends with the operand, beside those from before that do.
  have hc : closings l.length (l.length :: advance 1 pending) =
      mark ')' :: closings (1 + l.length) pending := by
    rw [← closings_advance hpos, closings, List.count_cons_self, List.replicate_succ]
    rfl
  have ha : advance l.length (l.length :: advance 1 pending) = advance (1 + l.length) pending := by
    rw [← advance_advance]
    simp [advance]
  have hlast : (mark '-' :: l).getLast? = l.getLast? := by
    obtain ⟨k, l, rfl⟩ := List.exists_cons_of_ne_nil h₀
    rfl
  rw [List.cons_append, subtractFromZero_cons, opening, if_neg hi, hg, h₁]
  simp only [Option.isSome_some, if_true, Option.toList_some, List.nil_append,
    List.singleton_append]
  rw [hl _ _ rest trivial hr hm, hc, ha, hlast, List.length_cons, Nat.add_comm l.length]
  simp

end Expression

open Chunk (mark name number outline)

/-- The grammar of expressions with every sign written and every constant replaced, over chunks. -/
inductive Explicit : Category → List Chunk → Tree → Prop where
  | number {d x} :
    Lexeme.read (.numeral d) = .ok (.number x) →
    Explicit .atom [.number d] (.number x)
  | call {f l t} :
    Explicit .sum l t →
    Explicit .atom (.name (Function.name f).toList :: .mark '(' :: (l ++ [.mark ')'])) (.call f t)
  | group {l t} :
    Explicit .sum l t →
    Explicit .atom (.mark '(' :: (l ++ [.mark ')'])) t
  | atom {l t} :
    Explicit .atom l t →
    Explicit .power l t
  | power {l m t u} :
    Explicit .atom l t →
    Explicit .factor m u →
    Explicit .power (l ++ .mark '^' :: m) (.binary .power t u)
  | factor {l t} :
    Explicit .power l t →
    Explicit .factor l t
  | negative {l t} :
    Explicit .power l t →
    Explicit .factor (.mark '-' :: l) (.binary .subtract (.number 0) t)
  | first {l t} :
    Explicit .power l t →
    Explicit (.product false) l t
  | signedFirst {l t} :
    Explicit .factor l t →
    Explicit (.product true) l t
  | times {signed o l m t u} :
    o = Operator.multiply ∨ o = Operator.divide →
    Explicit (.product signed) l t →
    Explicit .factor m u →
    Explicit (.product signed) (l ++ .mark o.symbol :: m) (.binary o t u)
  | sum {l t} :
    Explicit (.product false) l t →
    Explicit .sum l t
  | negated {l t} :
    Explicit (.product true) l t →
    Explicit .sum (.mark '-' :: l) (.binary .subtract (.number 0) t)
  | plus {o l m t u} :
    o = Operator.add ∨ o = Operator.subtract →
    Explicit .sum l t →
    Explicit (.product true) m u →
    Explicit .sum (l ++ .mark o.symbol :: m) (.binary o t u)

namespace Explicit

open Expression (depthAfter atomLength? powersLength operandLength? groupLength)

variable {c : Category} {l : List Chunk} {t : Tree}

lemma ne_nil (h : Explicit c l t) : l ≠ [] := by
  induction h <;> simp_all

/-- An explicit expression ends with an operand. -/
lemma getLast_cases (h : Explicit c l t) :
    ∃ j, l.getLast? = some j ∧ j ≠ mark '(' ∧ j.isOperator = false := by
  induction h with
  | @number d x _ => exact ⟨_, rfl, by simp, rfl⟩
  | @call f l t _ _ =>
    refine ⟨mark ')', ?_, by simp, rfl⟩
    exact List.getLast?_concat (l := .name f.name.toList :: mark '(' :: l)
  | @group l t _ _ => exact ⟨mark ')', List.getLast?_concat (l := mark '(' :: l), by simp, rfl⟩
  | power _ hm _ ih => rwa [getLast?_append_cons hm.ne_nil]
  | times _ _ hm _ ih => rwa [getLast?_append_cons hm.ne_nil]
  | plus _ _ hm _ ih => rwa [getLast?_append_cons hm.ne_nil]
  | negative hl ih => rwa [← List.nil_append (_ :: _), getLast?_append_cons hl.ne_nil]
  | negated hl ih => rwa [← List.nil_append (_ :: _), getLast?_append_cons hl.ne_nil]
  | atom _ ih => exact ih
  | factor _ ih => exact ih
  | first _ ih => exact ih
  | signedFirst _ ih => exact ih
  | sum _ ih => exact ih

lemma depthAfter_outline (h : Explicit c l t) (d : Nat) : depthAfter d (outline l) = some d := by
  have sign (o : Operator) (l : List Chunk) (d : Nat) :
      depthAfter d (outline (mark o.symbol :: l)) = depthAfter d (outline l) :=
    Expression.depthAfter_operator o d _
  have between {l m : List Chunk} (o : Operator) (hl : ∀ d, depthAfter d (outline l) = some d)
      (hm : ∀ d, depthAfter d (outline m) = some d) (d : Nat) :
      depthAfter d (outline (l ++ mark o.symbol :: m)) = some d := by
    rw [Chunk.outline_append, Expression.depthAfter_append, hl, Option.bind_some, sign, hm]
  have group {l : List Chunk} (hl : ∀ d, depthAfter d (outline l) = some d) (d : Nat) :
      depthAfter d (outline (mark '(' :: (l ++ [mark ')']))) = some d := by
    rw [Chunk.outline_cons, Chunk.outline_append]
    exact Expression.depthAfter_group hl d []
  induction h generalizing d with
  | number => rfl
  | call _ ih => exact group ih d
  | group _ ih => exact group ih d
  | power _ _ ihl ihm => exact between .power ihl ihm d
  | @times _ o _ _ _ _ _ _ _ ihl ihm => exact between o ihl ihm d
  | @plus o _ _ _ _ _ _ _ ihl ihm => exact between o ihl ihm d
  | negative _ ih => rw [← ih d]; exact sign .subtract _ d
  | negated _ ih => rw [← ih d]; exact sign .subtract _ d
  | atom _ ih => exact ih d
  | factor _ ih => exact ih d
  | first _ ih => exact ih d
  | signedFirst _ ih => exact ih d
  | sum _ ih => exact ih d

/-- A group is as long as the list in it, with its parentheses. -/
lemma groupLength_eq (h : Explicit c l t) (rest : List Chunk) :
    groupLength 1 (l ++ mark ')' :: rest) = l.length + 1 := by
  rw [Expression.groupLength_append (h.depthAfter_outline 0)]
  rfl

/-- An atom is found as one. -/
lemma atomLength?_eq (h : Explicit .atom l t) (rest : List Chunk) :
    atomLength? (l ++ rest) = some l.length := by
  cases h with
  | number => rfl
  | @call f l t hl =>
    have e := hl.groupLength_eq rest
    simp only [List.cons_append, List.append_assoc, List.nil_append, atomLength?, e,
      List.length_cons, List.length_append, List.length_nil]
  | @group l t hl =>
    have e := hl.groupLength_eq rest
    simp only [List.cons_append, List.append_assoc, List.nil_append, atomLength?, e,
      List.length_cons, List.length_append, List.length_nil]

lemma head?_ne_minus (h : Explicit .atom l t) (rest : List Chunk) :
    (l ++ rest).head? ≠ some (mark '-') := by
  cases h <;> simp

/-- An atom and powers that are found behind it. -/
def IsOperand (l : List Chunk) : Prop :=
  ∃ a w u, l = a ++ w ∧ Explicit .atom a u ∧
    ∀ rest, rest.head? ≠ some (mark '^') → powersLength (w ++ rest) = w.length

/-- The powers that begin with an exponent are the exponent and the powers behind it. -/
lemma IsOperand.powersLength_eq {m : List Chunk} (h : IsOperand m) {rest : List Chunk}
    (hr : rest.head? ≠ some (mark '^')) :
    powersLength (mark '^' :: (m ++ rest)) = m.length + 1 ∧
      powersLength (mark '^' :: mark '-' :: (m ++ rest)) = m.length + 2 := by
  obtain ⟨a, w, u, rfl, ha, hw⟩ := h
  have e := ha.atomLength?_eq (w ++ rest)
  have hh := ha.head?_ne_minus (w ++ rest)
  rw [List.append_assoc, Expression.powersLength_power hh, e, powersLength, e]
  simp only [List.drop_left, hw rest hr, List.length_append]
  omega

/-- Powers are operands, and factors are operands with a sign or without. -/
lemma isOperand (h : Explicit c l t) :
    (c = .atom ∨ c = .power → IsOperand l) ∧
      (c = .factor → IsOperand l ∨ ∃ m, l = mark '-' :: m ∧ IsOperand m) := by
  have atom {a : List Chunk} {u : Tree} (ha : Explicit .atom a u) : IsOperand a :=
    ⟨a, [], u, by simp, ha, fun _ hr => Expression.powersLength_of_ne hr⟩
  induction h with
  | number hd => exact ⟨fun _ => atom (.number hd), nofun⟩
  | call hl => exact ⟨fun _ => atom (.call hl), nofun⟩
  | group hl => exact ⟨fun _ => atom (.group hl), nofun⟩
  | atom hl => exact ⟨fun _ => atom hl, nofun⟩
  | @power l m t u hl _ _ ihm =>
    refine ⟨fun _ => ⟨l, mark '^' :: m, t, rfl, hl, fun rest hr => ?_⟩, nofun⟩
    obtain hm | ⟨m, rfl, hm⟩ := ihm.2 rfl
    · exact (hm.powersLength_eq hr).1
    · exact (hm.powersLength_eq hr).2
  | factor _ ih => exact ⟨nofun, fun _ => .inl (ih.1 (.inr rfl))⟩
  | negative _ ih => exact ⟨nofun, fun _ => .inr ⟨_, rfl, ih.1 (.inr rfl)⟩⟩
  | first => exact ⟨nofun, nofun⟩
  | signedFirst => exact ⟨nofun, nofun⟩
  | times => exact ⟨nofun, nofun⟩
  | sum => exact ⟨nofun, nofun⟩
  | negated => exact ⟨nofun, nofun⟩
  | plus => exact ⟨nofun, nofun⟩

/-- A power is found as the operand of a minus before it. -/
lemma operandLength?_eq (h : Explicit .power l t) {rest : List Chunk}
    (hr : rest.head? ≠ some (mark '^')) : operandLength? (l ++ rest) = some l.length := by
  obtain ⟨a, w, u, rfl, ha, hw⟩ := h.isOperand.1 (.inr rfl)
  rw [List.append_assoc, operandLength?, ha.atomLength?_eq, Option.map_some, List.drop_left,
    hw rest hr, List.length_append]

end Explicit

namespace Category

/-- How strongly the tokens of a category bind. -/
def level : Category → Nat
  | sum => 1
  | product _ => 2
  | factor => 3
  | power => 3
  | atom => 4

/-- What has to stand before a category that may begin with a minus. -/
def Fits : Category → Option Chunk → Prop
  | sum, p => p = none ∨ p = some (mark '(')
  | product true, p => p.any (·.isOperator)
  | factor, p => p.any (·.isOperator)
  | _, _ => True

/-- What may stand behind a category: an atom may be the base of a power. -/
def Follows : Category → List Chunk → Prop
  | atom, _ => True
  | _, rest => rest.head? ≠ some (mark '^')

end Category

namespace Chunk

/-- Whether a chunk is read as a token. -/
def Reads (k : Chunk) (t : Token) : Prop :=
  k.toLexeme.read = .ok t

lemma Reads.cases {k : Chunk} {t : Token} (h : k.Reads t) :
    (∃ d x, k = number d ∧ t = .number x) ∨
      (∃ f, k = name (Function.name f).toList ∧ t = .function f) ∨
        (∃ o, k = mark (Operator.symbol o) ∧ t = .operator o) ∨
          (k = mark '(' ∧ t = .leftParen) ∨ (k = mark ')' ∧ t = .rightParen) := by
  cases k with
  | number d =>
    rw [Reads, toLexeme, Lexeme.read, Lexeme.readNumeral] at h
    split at h
    · cases h
    · split at h
      · cases h
      · split at h
        · cases h
          exact .inl ⟨d, _, rfl, rfl⟩
        · cases h
  | name s =>
    rw [Reads, toLexeme, Lexeme.read, Lexeme.readName] at h
    split at h
    · next f hf =>
      cases h
      have e : s = f.name.toList := by rw [Function.name_of_ofName? hf, String.toList_ofList]
      exact .inr (.inl ⟨f, by rw [e], rfl⟩)
    · cases h
  | mark c =>
    rw [Reads, toLexeme, Lexeme.read, Lexeme.readMark] at h
    split at h
    · next o ho =>
      cases h
      exact .inr (.inr (.inl ⟨o, by rw [Operator.symbol_of_ofChar? ho], rfl⟩))
    · split at h
      · next hc =>
        cases h
        exact .inr (.inr (.inr (.inl ⟨by rw [hc], rfl⟩)))
      · split at h
        · next hc =>
          cases h
          exact .inr (.inr (.inr (.inr ⟨by rw [hc], rfl⟩)))
        · cases h

lemma Reads.isNumber {k : Chunk} {t : Token} (h : k.Reads t) : k.isNumber = t.isNumber := by
  obtain ⟨d, x, rfl, rfl⟩ | ⟨f, rfl, rfl⟩ | ⟨o, rfl, rfl⟩ | ⟨rfl, rfl⟩ | ⟨rfl, rfl⟩ := h.cases <;>
    rfl

/-- Neighbours among chunks are related as the tokens that they are read as. -/
lemma isChain_of_reads {R : Chunk → Chunk → Prop} {S : Token → Token → Prop}
    (hR : ∀ {j k t u}, Reads j t → Reads k u → S t u → R j k) {l : List Chunk}
    {tokens : List Token} (h : List.Forall₂ Reads l tokens) (ht : tokens.IsChain S) :
    l.IsChain R := by
  induction h with
  | nil => exact .nil
  | @cons k t l tokens hk hl ih =>
    obtain ⟨hh, ht⟩ := List.isChain_cons.mp ht
    refine List.isChain_cons.mpr ⟨fun j hj => ?_, ih ht⟩
    cases hl with
    | nil => cases hj
    | @cons j' u l tokens hj' _ =>
      cases hj
      exact hR hk hj' (hh u rfl)

/-- Chunks whose tokens are apart are so, too. -/
lemma apart_of_reads {l : List Chunk} {tokens : List Token} (h : List.Forall₂ Reads l tokens)
    (ht : tokens.IsChain fun a b => ¬(a.isNumber ∧ b.isNumber)) : Apart l :=
  isChain_of_reads (fun hj hk hn => by rwa [hj.isNumber, hk.isNumber]) h ht

/-- An outline is like the tokens that the chunks are read as. -/
lemma alike_of_reads {l : List Chunk} {tokens : List Token} (h : List.Forall₂ Reads l tokens) :
    Expression.Alike (outline l) (tokens.map Token.symbol) := by
  induction h with
  | nil => exact .refl []
  | @cons k t l tokens hk _ ih =>
    obtain ⟨d, x, rfl, rfl⟩ | ⟨f, rfl, rfl⟩ | ⟨o, rfl, rfl⟩ | ⟨rfl, rfl⟩ | ⟨rfl, rfl⟩ := hk.cases
    · exact ih.cons '0'
    · exact .plain (s := []) (.inl rfl) (by simp [Expression.IsPlain, symbol]) ih
    · exact ih.cons o.symbol
    · exact ih.cons '('
    · exact ih.cons ')'

end Chunk

namespace Explicit

open Expression (Becomes becomes_chunk becomes_operator becomes_leading becomes_grouped)

lemma reads_operator (o : Operator) : (mark o.symbol).Reads (.operator o) :=
  Expression.read_operator o

lemma reads_open : (mark '(').Reads .leftParen := rfl

lemma reads_close : (mark ')').Reads .rightParen := rfl

lemma reads_function (f : Function) : (name f.name.toList).Reads (.function f) :=
  Expression.read_function f

lemma becomes_group {l r : List Chunk} (h₀ : l ≠ [])
    (h : Becomes Category.sum.Fits Category.sum.Follows l r) :
    Becomes (fun _ => True) (fun _ => True) (mark '(' :: (l ++ [mark ')']))
      (mark '(' :: (r ++ [mark ')'])) := by
  have ho := (becomes_chunk (k := mark '(') (by simp)).append h h₀ (.inr rfl) fun _ _ => trivial
  exact ho.append (becomes_chunk (k := mark ')') (by simp)) (by simp) trivial fun rest _ => by
    simp [Category.Follows]

lemma becomes_binary {o : Operator} {l m r s : List Chunk} {fits : Option Chunk → Prop}
    {follow follow' : List Chunk → Prop} (hl : Becomes fits follow l r)
    (hlast : ∃ j, l.getLast? = some j ∧ j ≠ mark '(' ∧ j.isOperator = false)
    (hm : Becomes Category.factor.Fits follow' m s) (h₀ : m ≠ [])
    (hw : ∀ rest, follow (mark o.symbol :: rest)) :
    Becomes fits follow' (l ++ mark o.symbol :: m) (r ++ mark o.symbol :: s) := by
  have ho : (some (mark o.symbol)).any (·.isOperator) := by cases o <;> rfl
  have hom := (becomes_operator (mark o.symbol)).append hm h₀ ho fun _ _ => trivial
  exact hl.append hom (by simp) hlast fun rest _ => hw _

variable {c : Category} {l : List Chunk} {t : Tree}

/-- What becomes of an explicit expression is read as a list of tokens in infix order with its
tree. -/
theorem exists_becomes (h : Explicit c l t) :
    ∃ r tokens, List.Forall₂ Chunk.Reads r tokens ∧ Infix c.level tokens t ∧
      Becomes c.Fits c.Follows l r := by
  induction h with
  | @number d x hd =>
    exact ⟨[.number d], [.number x], .cons hd .nil, .number, becomes_chunk (by simp)⟩
  | @call f l t hl ih =>
    obtain ⟨r, tokens, hr, ht, hb⟩ := ih
    have hi : Infix 4 (.function f :: .leftParen :: (tokens ++ [.rightParen])) (.call f t) :=
      .call ht
    refine ⟨.name f.name.toList :: mark '(' :: (r ++ [mark ')']), _, ?_, hi, ?_⟩
    · exact .cons (reads_function f) (.cons reads_open (List.rel_append hr (.cons reads_close .nil)))
    · exact (becomes_chunk (by simp)).append (becomes_group hl.ne_nil hb) (by simp) trivial
        fun _ _ => trivial
  | @group l t hl ih =>
    obtain ⟨r, tokens, hr, ht, hb⟩ := ih
    have hi : Infix 4 (.leftParen :: (tokens ++ [.rightParen])) t := .group ht
    have hr := List.rel_append hr (.cons reads_close .nil)
    exact ⟨_, _, .cons reads_open hr, hi, becomes_group hl.ne_nil hb⟩
  | atom _ ih =>
    obtain ⟨r, tokens, hr, ht, hb⟩ := ih
    exact ⟨r, tokens, hr, ht.weaken, hb.mono (fun _ h => h) fun _ _ => trivial⟩
  | power hl hm ihl ihm =>
    obtain ⟨r, tokens, hr, ht, hb⟩ := ihl
    obtain ⟨s, tokens', hs, ht', hb'⟩ := ihm
    have hi : Infix 3 (tokens ++ .operator .power :: tokens') (.binary .power _ _) :=
      ht.of_binary ht' (by decide) (by decide) (by decide)
    refine ⟨r ++ mark Operator.power.symbol :: s, _, ?_, hi, ?_⟩
    · exact List.rel_append hr (.cons (reads_operator .power) hs)
    · exact becomes_binary (o := .power) hb hl.getLast_cases hb' hm.ne_nil fun _ => trivial
  | factor _ ih =>
    obtain ⟨r, tokens, hr, ht, hb⟩ := ih
    exact ⟨r, tokens, hr, ht, hb.mono (fun _ _ => trivial) fun _ h => h⟩
  | negative hl ih =>
    obtain ⟨r, tokens, hr, ht, hb⟩ := ih
    have hi := ht.zero_subtract (by decide)
    -- In its group the subtraction is an atom, so it may stand wherever the factor did.
    have hg : Infix 3 (.leftParen :: ([.number 0] ++ .operator .subtract :: tokens ++
        [.rightParen])) (.binary .subtract (.number 0) _) := hi.group.weaken
    refine ⟨_, _, ?_, hg, becomes_grouped hb hl.ne_nil fun rest hr => hl.operandLength?_eq hr⟩
    exact .cons reads_open (.cons Expression.read_zero (.cons (reads_operator .subtract)
      (List.rel_append hr (.cons reads_close .nil))))
  | first _ ih =>
    obtain ⟨r, tokens, hr, ht, hb⟩ := ih
    exact ⟨r, tokens, hr, ht.weaken, hb⟩
  | signedFirst _ ih =>
    obtain ⟨r, tokens, hr, ht, hb⟩ := ih
    exact ⟨r, tokens, hr, ht.weaken, hb⟩
  | @times signed o l m t u ho hl hm ihl ihm =>
    obtain ⟨r, tokens, hr, ht, hb⟩ := ihl
    obtain ⟨s, tokens', hs, ht', hb'⟩ := ihm
    have ht : Infix 2 tokens t := ht
    have hi : Infix 2 (tokens ++ .operator o :: tokens') (.binary o t u) := by
      obtain rfl | rfl := ho <;> exact ht.of_binary ht' (by decide) (by decide) (by decide)
    refine ⟨_, _, List.rel_append hr (.cons (reads_operator o) hs), hi,
      becomes_binary hb hl.getLast_cases hb' hm.ne_nil ?_⟩
    obtain rfl | rfl := ho <;> simp [Category.Follows, Operator.symbol]
  | sum _ ih =>
    obtain ⟨r, tokens, hr, ht, hb⟩ := ih
    exact ⟨r, tokens, hr, ht.weaken, hb.mono (fun _ _ => trivial) fun _ h => h⟩
  | negated hl ih =>
    obtain ⟨r, tokens, hr, ht, hb⟩ := ih
    have hi := ht.zero_subtract (by decide)
    refine ⟨_, _, ?_, hi, becomes_leading.append hb hl.ne_nil rfl fun _ _ => trivial⟩
    exact .cons Expression.read_zero (.cons (reads_operator .subtract) hr)
  | @plus o l m t u ho hl hm ihl ihm =>
    obtain ⟨r, tokens, hr, ht, hb⟩ := ihl
    obtain ⟨s, tokens', hs, ht', hb'⟩ := ihm
    have hi : Infix 1 (tokens ++ .operator o :: tokens') (.binary o t u) := by
      obtain rfl | rfl := ho <;> exact ht.of_binary ht' (by decide) (by decide) (by decide)
    refine ⟨_, _, List.rel_append hr (.cons (reads_operator o) hs), hi,
      becomes_binary hb hl.getLast_cases hb' hm.ne_nil ?_⟩
    obtain rfl | rfl := ho <;> simp [Category.Follows, Operator.symbol]

end Explicit

end Reckoner
