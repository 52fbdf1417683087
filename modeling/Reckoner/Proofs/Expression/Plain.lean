import Mathlib
import Reckoner.Proofs.Expression.Lexing
import Reckoner.Proofs.Expression.Meaning

/-!
# Arithmetic on rational numbers

A tree of numbers and operators other than powers is followed step by step on rational numbers: the exact result of
each operator is rounded (`Tree.Rounds`). Such a tree has a value, which is the number that was followed
(`Tree.Rounds.exists_evaluate`), and so has every text without display symbols that it is the tree of
(`exists_evaluate_of_cuts`).
-/

namespace Reckoner

open Number (toRat? round? IsDouble)

/-- The exact result of an operator, for those that have a rational one. -/
def Operator.rational? : Operator → ℚ → ℚ → Option ℚ
  | add, a, b => some (a + b)
  | subtract, a, b => some (a - b)
  | multiply, a, b => some (a * b)
  | divide, a, b => if b = 0 then none else some (a / b)
  | power, _, _ => none

/-- A tree with the number that is left when the result of every operator is rounded. -/
inductive Tree.Rounds : Tree → ℚ → Prop
  | number {x a} :
    toRat? x = some a →
    Rounds (.number x) a
  | binary {o t u a b r c} :
    Rounds t a →
    Rounds u b →
    Operator.rational? o a b = some r →
    round? r = some c →
    Rounds (.binary o t u) c

section Trees

variable {o : Operator} {t : Tree} {x y : Float} {a b c r : ℚ} {n : Numeral}

/-- An operator on doubles rounds its exact result. -/
lemma Operator.exists_apply (hx : toRat? x = some a) (hy : toRat? y = some b) (hr : o.rational? a b = some r)
    (hc : round? r = some c) : ∃ z, o.apply x y = .ok z ∧ toRat? z = some c := by
  suffices h : ∃ z, o.compute x y = .ok z ∧ toRat? z = some c by
    obtain ⟨z, hz, hzc⟩ := h
    refine ⟨z, ?_, hzc⟩
    rw [apply, hz, Outcome.ok_bind]
    exact if_pos ((Number.isFinite_iff z).mpr ⟨c, hzc⟩)
  cases o with
  | add =>
    obtain rfl := Option.some.inj hr
    exact ⟨x + y, rfl, (Number.toRat?_add hx hy).trans hc⟩
  | subtract =>
    obtain rfl := Option.some.inj hr
    exact ⟨x - y, rfl, (Number.toRat?_sub hx hy).trans hc⟩
  | multiply =>
    obtain rfl := Option.some.inj hr
    exact ⟨x * y, rfl, (Number.toRat?_mul hx hy).trans hc⟩
  | divide =>
    rw [rational?] at hr
    split at hr
    · cases hr
    · next hb =>
      obtain rfl := Option.some.inj hr
      refine ⟨x / y, ?_, (Number.toRat?_div hx hy hb).trans hc⟩
      rw [compute, Number.beq_eq hy Number.toRat?_zero, decide_eq_false hb]
      rfl
  | power => cases hr

namespace Tree.Rounds

lemma hasFiniteLiterals (h : t.Rounds a) : t.HasFiniteLiterals := by
  induction h with
  | number hx => exact (Number.isFinite_iff _).mpr ⟨_, hx⟩
  | binary _ _ _ _ iht ihu => exact ⟨iht, ihu⟩

lemma isDouble (h : t.Rounds a) : IsDouble a := by
  cases h with
  | number hx => exact Number.isDouble_of_toRat? hx
  | binary _ _ _ hc => exact Number.isDouble_of_round? hc

/-- A tree that can be followed on rational numbers has a value. -/
theorem exists_evaluate (h : t.Rounds a) : ∃ y, t.evaluate = .ok y ∧ toRat? y = some a := by
  induction h with
  | number hx => exact ⟨_, rfl, hx⟩
  | binary _ _ hr hc iht ihu =>
    obtain ⟨x, hx, hxa⟩ := iht
    obtain ⟨y, hy, hyb⟩ := ihu
    obtain ⟨z, hz, hzc⟩ := Operator.exists_apply hxa hyb hr hc
    exact ⟨z, by rw [evaluate, hx, Outcome.ok_bind, hy, Outcome.ok_bind, hz], hzc⟩

lemma numeral (h : round? n.exact = some a) : (Tree.number n.value).Rounds a :=
  .number (n.toRat?_value.trans h)

/-- The difference from zero is exact. -/
lemma signed (h : t.Rounds a) (p : Prop) [Decidable p] :
    (if p then Tree.binary .subtract (.number 0) t else t).Rounds (if p then -a else a) := by
  split
  · refine .binary (.number Number.toRat?_zero) h rfl ?_
    rw [zero_sub, Number.round?_neg, Number.round?_of_isDouble h.isDouble, Option.map_some]
  · exact h

end Tree.Rounds

end Trees

section Derivations

variable {l : List Lexeme} {t : Tree}

/-- A power is a product of any kind. -/
lemma Derives.product (h : Derives .power l t) (signed : Bool) : Derives (.product signed) l t := by
  cases signed with
  | false => exact .first h
  | true => exact .signedFirst (.factor h)

/-- A product can have a sign before it. -/
lemma Derives.signed (h : ∀ signed, Derives (.product signed) l t) (p : Prop) [Decidable p] :
    Derives .sum ((if p then [.mark '-'] else []) ++ l) (if p then .binary .subtract (.number 0) t else t) := by
  split
  · exact .negated (h true)
  · exact .sum (h false)

end Derivations

namespace Lexeme

variable {s : List Char} {l : List Lexeme}

/-- Texts that are cut into words of the grammar have no characters but those of expressions. -/
lemma Cuts.isAllowed (h : Cuts s l) (hl : ∀ a ∈ l, a.IsWord) : ∀ c ∈ s, Expression.isAllowed c := by
  induction h with
  | nil => nofun
  | numeral _ hrun _ _ ih =>
    refine List.forall_mem_append.mpr ⟨fun c hc => ?_, ih (List.forall_mem_cons.mp hl).2⟩
    have hpart := hrun c hc
    rw [Numeral.isPart, Bool.or_eq_true, decide_eq_true_iff] at hpart
    obtain hdigit | rfl := hpart
    · simp [Expression.isAllowed, Char.isAlphanum, hdigit]
    · rfl
  | name hc hrun _ _ ih =>
    refine List.forall_mem_append.mpr ⟨List.forall_mem_cons.mpr ⟨?_, fun d hd => ?_⟩, ih (List.forall_mem_cons.mp hl).2⟩
    · simp [Expression.isAllowed, Char.isAlphanum, hc]
    · simp [Expression.isAllowed, hrun d hd]
  | mark _ _ _ ih =>
    obtain ⟨hc, hl⟩ := List.forall_mem_cons.mp hl
    refine List.forall_mem_cons.mpr ⟨?_, ih hl⟩
    obtain rfl | rfl | ⟨o, rfl⟩ := hc
    · rfl
    · rfl
    · cases o <;> rfl

/-- They have no blanks. -/
lemma Cuts.dropBlanks (h : Cuts s l) (hl : ∀ a ∈ l, a.IsWord) : Text.dropBlanks s = s :=
  List.filter_eq_self.mpr fun c hc => by rw [Expression.isBlank_of_isAllowed (h.isAllowed hl c hc)]; rfl

end Lexeme

namespace Expression

variable {text : String} {s : List Char} {l : List Lexeme} {t : Tree} {a : ℚ}

/-- A text has the number of its tree. -/
theorem exists_evaluate_of_cuts (hs : Text.dropBlanks text.toList = s) (hl : Lexeme.Cuts s l) (h : Derives .sum l t)
    (ha : t.Rounds a) : ∃ y, evaluate text = .ok y ∧ toRat? y = some a := by
  obtain ⟨y, hy, hya⟩ := ha.exists_evaluate
  have hallowed := hl.isAllowed h.isWord
  rw [← Lexeme.cuts_iff.mp hl] at h
  obtain ⟨tokens, ht, hr⟩ := spelled_of_derives h ha.hasFiniteLiterals
  have hc : Chunk.Canonical (subtractFromZero none [] (Chunk.signed s)) :=
    canonical_subtractFromZero (Chunk.canonical_signed s)
  have hexpand : expand text.toList = s :=
    expand_of_displays (by rw [hs]; exact displays_self hallowed) (tidy_of_derives h ha.hasFiniteLiterals)
  have hspell : spell text.toList = Chunk.join (subtractFromZero none [] (Chunk.signed s)) := by
    rw [spell, Chunk.spellChunks_eq, hexpand]
  refine ⟨y, ?_, hya⟩
  rw [evaluate, Outcome.mapError_eq_ok, hspell, evaluateSpelled_eq (passes_of_reads hc.proper hr ht)
    (tokenize_of_reads hc (Chunk.apart_of_reads hr ht.isChain) hr) (Postfix.reorder_eq_postorder ht),
    Postfix.evaluate_postorder, hy]

end Expression

end Reckoner
