import Mathlib
import Reckoner.Expression.Spelling
import Reckoner.Expression.Tree

/-!
# The language of expressions

The grammar of expressions, over the lexemes of a text, with the tree that a derivation stands for. A sum
has a sign or none before its first product; every other product may start with a sign, as may every
factor and every exponent. A product may leave its sign out where `Lexeme.Juxtaposable` allows it.

A text is a sentence of the language if its lexemes, each as long as it can be, derive a sum.
-/

namespace Reckoner

namespace Lexeme

/-- Whether a lexeme is the name of a constant. -/
def isConstant : Lexeme → Bool
  | name letters => Constant.all.any fun k => letters = k.name.toList
  | _ => false

/-- Whether the sign of a product may be left out between two lexemes: behind a number, a constant or a
group before a group or a name, and behind a constant or a group before a number. -/
def Juxtaposable (a b : Lexeme) : Prop :=
  ((∃ s, a = numeral s) ∨ a.isConstant ∨ a = mark ')') ∧ (b = mark '(' ∨ ∃ s, b = name s) ∨
    (a.isConstant ∨ a = mark ')') ∧ ∃ s, b = numeral s

end Lexeme

/-- The categories of the grammar. The first factor of a product has a sign only if it is `signed`. -/
inductive Category where
  | sum
  | product (signed : Bool)
  | factor
  | power
  | atom
deriving DecidableEq, Repr

/-- The derivations of the grammar: a list of lexemes is in a category and stands for a tree. -/
inductive Derives : Category → List Lexeme → Tree → Prop where
  | number {s n} :
    Numeral.ofChars? s = some n →
    Derives .atom [.numeral s] (.number n.value)
  | constant {k} :
    Derives .atom [.name (Constant.name k).toList] (.number k.value)
  | call {f l t} :
    Derives .sum l t →
    Derives .atom (.name (Function.name f).toList :: .mark '(' :: (l ++ [.mark ')'])) (.call f t)
  | group {l t} :
    Derives .sum l t →
    Derives .atom (.mark '(' :: (l ++ [.mark ')'])) t
  | atom {l t} :
    Derives .atom l t →
    Derives .power l t
  | power {l m t u} :
    Derives .atom l t →
    Derives .factor m u →
    Derives .power (l ++ .mark '^' :: m) (.binary .power t u)
  | factor {l t} :
    Derives .power l t →
    Derives .factor l t
  | negative {l t} :
    Derives .power l t →
    Derives .factor (.mark '-' :: l) (.binary .subtract (.number 0) t)
  | first {l t} :
    Derives .power l t →
    Derives (.product false) l t
  | signedFirst {l t} :
    Derives .factor l t →
    Derives (.product true) l t
  | times {signed o l m t u} :
    o = Operator.multiply ∨ o = Operator.divide →
    Derives (.product signed) l t →
    Derives .factor m u →
    Derives (.product signed) (l ++ .mark o.symbol :: m) (.binary o t u)
  | juxtaposed {signed l m t u a b} :
    Derives (.product signed) l t →
    Derives .power m u →
    a ∈ l.getLast? → b ∈ m.head? → a.Juxtaposable b →
    Derives (.product signed) (l ++ m) (.binary .multiply t u)
  | sum {l t} :
    Derives (.product false) l t →
    Derives .sum l t
  | negated {l t} :
    Derives (.product true) l t →
    Derives .sum (.mark '-' :: l) (.binary .subtract (.number 0) t)
  | plus {o l m t u} :
    o = Operator.add ∨ o = Operator.subtract →
    Derives .sum l t →
    Derives (.product true) m u →
    Derives .sum (l ++ .mark o.symbol :: m) (.binary o t u)

/-- A text that is in the language. -/
def IsSentence (s : List Char) : Prop :=
  ∃ t, Derives .sum (Lexeme.split s) t

/-- Whether all numbers in a tree are finite. -/
def Tree.HasFiniteLiterals : Tree → Prop
  | number x => x.isFinite
  | call _ t => t.HasFiniteLiterals
  | binary _ t u => t.HasFiniteLiterals ∧ u.HasFiniteLiterals

/-- Whether all numbers in a tree are finite can be decided from the leaves. -/
instance Tree.decideHasFiniteLiterals : (t : Tree) → Decidable t.HasFiniteLiterals
  | number x => inferInstanceAs (Decidable (x.isFinite = true))
  | call _ t => decideHasFiniteLiterals t
  | binary _ t u => @instDecidableAnd _ _ (decideHasFiniteLiterals t) (decideHasFiniteLiterals u)

namespace Expression

/-- A text shows another one by display symbols; two asterisks show a power sign. -/
inductive Displays : List Char → List Char → Prop where
  | nil :
    Displays [] []
  | symbol {c r s} :
    Displays r s →
    Displays (c :: r) (plainForm c ++ s)
  | stars {r s} :
    Displays r s →
    Displays ('*' :: '*' :: r) ('^' :: s)

end Expression

/-- The last element of a list behind another one. -/
lemma getLast?_append_cons {α : Type} {m : List α} (h : m ≠ []) (l : List α) (a : α) :
    (l ++ a :: m).getLast? = m.getLast? := by
  obtain ⟨b, m, rfl⟩ := List.exists_cons_of_ne_nil h
  rw [List.getLast?_append_of_ne_nil l (List.cons_ne_nil _ _), List.getLast?_cons_cons]

/-- A numeral has one point at most. -/
lemma Numeral.count_point_le {s : List Char} {n : Numeral} (h : ofChars? s = some n) :
    s.count '.' ≤ 1 := by
  have hw : (s.takeWhile Char.isDigit).count '.' = 0 :=
    List.count_eq_zero.mpr fun hm => absurd (List.mem_takeWhile_imp hm) (by decide)
  have hs := List.takeWhile_append_dropWhile (p := Char.isDigit) (l := s)
  rw [ofChars?] at h
  split at h
  · next hd =>
    rw [hd, List.append_nil] at hs
    rw [← hs, hw]
    exact Nat.zero_le 1
  · next c r hd =>
    split at h
    · next hc =>
      obtain ⟨rfl, hr, -⟩ := hc
      have hr : r.count '.' = 0 := List.count_eq_zero.mpr fun hm =>
        absurd (List.all_eq_true.mp hr '.' hm) (by decide)
      rw [← hs, List.count_append, hw, hd, List.count_cons_self, hr]
    · cases h

/-- A lexeme that the grammar has a use for. -/
def Lexeme.IsWord : Lexeme → Prop
  | numeral s => ∃ n, Numeral.ofChars? s = some n
  | name s => (∃ k : Constant, s = k.name.toList) ∨ ∃ f : Function, s = f.name.toList
  | mark c => c = '(' ∨ c = ')' ∨ ∃ o : Operator, c = o.symbol

/-- A derivation is made of words of the grammar. -/
lemma Derives.isWord {c : Category} {l : List Lexeme} {t : Tree} (h : Derives c l t) :
    ∀ a ∈ l, a.IsWord := by
  have group {l : List Lexeme} (ih : ∀ a ∈ l, a.IsWord) :
      ∀ a ∈ Lexeme.mark '(' :: (l ++ [.mark ')']), a.IsWord := by
    intro a ha
    simp only [List.mem_cons, List.mem_append, List.not_mem_nil, or_false] at ha
    rcases ha with rfl | ha | rfl
    · exact .inl rfl
    · exact ih a ha
    · exact .inr (.inl rfl)
  have sign (o : Operator) : (Lexeme.mark o.symbol).IsWord := .inr (.inr ⟨o, rfl⟩)
  have between {l m : List Lexeme} (o : Operator) (ihl : ∀ a ∈ l, a.IsWord)
      (ihm : ∀ a ∈ m, a.IsWord) : ∀ a ∈ l ++ Lexeme.mark o.symbol :: m, a.IsWord :=
    List.forall_mem_append.mpr ⟨ihl, List.forall_mem_cons.mpr ⟨sign o, ihm⟩⟩
  induction h with
  | number hn => exact List.forall_mem_singleton.mpr ⟨_, hn⟩
  | constant => exact List.forall_mem_singleton.mpr (.inl ⟨_, rfl⟩)
  | call _ ih => exact List.forall_mem_cons.mpr ⟨.inr ⟨_, rfl⟩, group ih⟩
  | group _ ih => exact group ih
  | power _ _ ihl ihm => exact between .power ihl ihm
  | @times _ o _ _ _ _ _ _ _ ihl ihm => exact between o ihl ihm
  | @plus o _ _ _ _ _ _ _ ihl ihm => exact between o ihl ihm
  | juxtaposed _ _ _ _ _ ihl ihm => exact List.forall_mem_append.mpr ⟨ihl, ihm⟩
  | negative _ ih => exact List.forall_mem_cons.mpr ⟨sign .subtract, ih⟩
  | negated _ ih => exact List.forall_mem_cons.mpr ⟨sign .subtract, ih⟩
  | atom _ ih => exact ih
  | factor _ ih => exact ih
  | first _ ih => exact ih
  | signedFirst _ ih => exact ih
  | sum _ ih => exact ih

end Reckoner
