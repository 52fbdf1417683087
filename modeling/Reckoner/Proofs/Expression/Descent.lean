import Mathlib
import Reckoner.Proofs.Expression.Grammar

/-!
# Recursive descent

A list of lexemes is `Orderly` if every lexeme is a word that may stand behind the one before it, if
every group is closed, and if the list ends with a value. These are conditions on neighbours and on
depth only. They are enough for the grammar: an orderly list is a sum (`Orderly.exists_derives`).

The proof is a parser by recursive descent. From the start of an orderly list each category takes as
many lexemes as it can, and leaves a list that is orderly again and that the category cannot go on
with (`Parses`). The induction is on the length of the list (`Orderly.parses`). Of the categories of
one length, a power needs its atom only, a factor its power, and so on to the sum; the loops over the
operators of a product and of a sum have an induction of their own (`Orderly.extend_product`,
`Orderly.extend_sum`).
-/

namespace Reckoner

namespace Lexeme

/-- Whether a lexeme ends an operand. -/
def isValue : Lexeme → Bool
  | numeral _ => true
  | name s => (name s).isConstant
  | mark c => c = ')'

/-- Whether a lexeme begins an operand. -/
def isOpening : Lexeme → Bool
  | numeral _ => true
  | name _ => true
  | mark c => c = '('

/-- Whether a lexeme writes an operator. -/
def isOperator : Lexeme → Bool
  | mark c => (Operator.ofChar? c).isSome
  | _ => false

lemma isOperator_symbol (o : Operator) : (mark o.symbol).isOperator := by
  cases o <;> rfl

lemma isValue_constant (k : Constant) : (name k.name.toList).isValue := by
  cases k <;> rfl

lemma isValue_function (f : Function) : (name f.name.toList).isValue = false := by
  cases f <;> rfl

lemma isOperator_of_isValue {a : Lexeme} (h : a.isValue) : a.isOperator = false := by
  cases a with
  | mark c =>
    have hc : c = ')' := by simpa [isValue] using h
    rw [hc]
    rfl
  | numeral s => rfl
  | name s => rfl

end Lexeme

open Lexeme (numeral name mark)

/-- The lists of words that may stand behind a lexeme, where some groups are open. -/
inductive Orderly : Nat → Option Lexeme → List Lexeme → Prop where
  | nil {p} :
    p.any (·.isValue) →
    Orderly 0 p []
  | number {d p s n l} :
    Numeral.ofChars? s = some n →
    (∀ t, p ≠ some (.numeral t)) →
    Orderly d (some (.numeral s)) l →
    Orderly d p (.numeral s :: l)
  | constant {d p k l} :
    Orderly d (some (.name (Constant.name k).toList)) l →
    Orderly d p (.name (Constant.name k).toList :: l)
  | function {d p f l} :
    Orderly (d + 1) (some (.mark '(')) l →
    Orderly d p (.name (Function.name f).toList :: .mark '(' :: l)
  | opening {d p l} :
    Orderly (d + 1) (some (.mark '(')) l →
    Orderly d p (.mark '(' :: l)
  | closing {d p l} :
    p.any (·.isValue) →
    Orderly d (some (.mark ')')) l →
    Orderly (d + 1) p (.mark ')' :: l)
  | operator {d p o l} :
    p.any (·.isValue) →
    Orderly d (some (.mark (Operator.symbol o))) l →
    Orderly d p (.mark (Operator.symbol o) :: l)
  | minus {d p l} :
    p.any (·.isValue) = false →
    (p.any (·.isOperator) → l.head?.any (·.isOpening)) →
    Orderly d (some (.mark '-')) l →
    Orderly d p (.mark '-' :: l)

namespace Category

/-- What a list has to be for a category to begin there. -/
def Begins : Category → Option Lexeme → List Lexeme → Prop
  | sum, p, _ => p.any (·.isValue) = false ∧ p.any (·.isOperator) = false
  | product true, p, l => l.head?.any (·.isOpening) ∨ p.any (·.isOperator)
  | factor, p, l => l.head?.any (·.isOpening) ∨ p.any (·.isOperator)
  | _, _, l => l.head?.any (·.isOpening)

/-- What is left where a category cannot go on. -/
def Stops : Category → List Lexeme → Prop
  | sum, r => ∀ a ∈ r.head?, a = mark ')'
  | product _, r => ∀ a ∈ r.head?, a = mark ')' ∨ a = mark '+' ∨ a = mark '-'
  | atom, _ => True
  | _, r => r.head? ≠ some (mark '^')

end Category

/-- A category takes a part from the start of a list and leaves an orderly rest. -/
def Parses (c : Category) (d : Nat) (l : List Lexeme) : Prop :=
  ∃ m r t, l = m ++ r ∧ Derives c m t ∧ Orderly d m.getLast? r ∧ c.Stops r

/-- Every category takes a part from every shorter list that it can begin with. -/
def ParsesBelow (n : Nat) : Prop :=
  ∀ {c d p l}, Orderly d p l → l.length < n → Category.Begins c p l → Parses c d l

namespace Derives

variable {c : Category} {m : List Lexeme} {t : Tree}

lemma ne_nil (h : Derives c m t) : m ≠ [] := by
  induction h <;> simp_all

lemma getLast?_isValue (h : Derives c m t) : ∃ a, m.getLast? = some a ∧ a.isValue := by
  induction h with
  | number => exact ⟨_, rfl, rfl⟩
  | @constant k => exact ⟨_, rfl, Lexeme.isValue_constant k⟩
  | @call f l _ _ _ =>
    refine ⟨mark ')', ?_, rfl⟩
    exact List.getLast?_concat (l := name f.name.toList :: mark '(' :: l)
  | @group l _ _ _ => exact ⟨mark ')', List.getLast?_concat (l := mark '(' :: l), rfl⟩
  | power _ hm _ ih => rwa [getLast?_append_cons hm.ne_nil]
  | times _ _ hm _ ih => rwa [getLast?_append_cons hm.ne_nil]
  | plus _ _ hm _ ih => rwa [getLast?_append_cons hm.ne_nil]
  | juxtaposed _ hm _ _ _ _ ih => rwa [List.getLast?_append_of_ne_nil _ hm.ne_nil]
  | negative hl ih => rwa [← List.nil_append (_ :: _), getLast?_append_cons hl.ne_nil]
  | negated hl ih => rwa [← List.nil_append (_ :: _), getLast?_append_cons hl.ne_nil]
  | atom _ ih => exact ih
  | factor _ ih => exact ih
  | first _ ih => exact ih
  | signedFirst _ ih => exact ih
  | sum _ ih => exact ih

lemma any_getLast? (h : Derives c m t) :
    m.getLast?.any (·.isValue) ∧ m.getLast?.any (·.isOperator) = false := by
  obtain ⟨a, ha, hv⟩ := h.getLast?_isValue
  rw [ha]
  exact ⟨hv, Lexeme.isOperator_of_isValue hv⟩

end Derives

namespace Orderly

variable {d n : Nat} {p : Option Lexeme} {l m r : List Lexeme} {t : Tree}

/-- An operand that follows a value directly is a product with it. -/
lemma exists_juxtaposable (h : Orderly d p l) (hp : p.any (·.isValue))
    (hl : l.head?.any (·.isOpening)) : ∃ a b, a ∈ p ∧ b ∈ l.head? ∧ a.Juxtaposable b := by
  obtain ⟨a, rfl, ha⟩ := (Option.any_eq_true _ _).mp hp
  have left : (∃ s, a = numeral s) ∨ a.isConstant ∨ a = mark ')' := by
    cases a with
    | numeral s => exact .inl ⟨s, rfl⟩
    | name s => exact .inr (.inl ha)
    | mark c => exact .inr (.inr (by simpa [Lexeme.isValue] using ha))
  cases h with
  | nil => cases hl
  | @number _ _ s n l _ hn _ =>
    have hn : ∀ s, a ≠ numeral s := fun s e => hn s (by rw [e])
    exact ⟨a, _, rfl, rfl, .inr ⟨left.resolve_left fun ⟨s, e⟩ => hn s e, s, rfl⟩⟩
  | constant => exact ⟨a, _, rfl, rfl, .inl ⟨left, .inr ⟨_, rfl⟩⟩⟩
  | function => exact ⟨a, _, rfl, rfl, .inl ⟨left, .inr ⟨_, rfl⟩⟩⟩
  | opening => exact ⟨a, _, rfl, rfl, .inl ⟨left, .inl rfl⟩⟩
  | closing => cases hl
  | @operator _ _ o _ => cases o <;> cases hl
  | minus => cases hl

/-- A list behind an opening parenthesis. -/
lemma of_opening (h : Orderly d p (mark '(' :: l)) : Orderly (d + 1) (some (mark '(')) l := by
  generalize he : mark '(' :: l = k at h
  cases h with
  | opening h =>
    cases he
    exact h
  | @operator _ _ o _ => cases o <;> cases he
  | nil => cases he
  | number => cases he
  | constant => cases he
  | function => cases he
  | closing => cases he
  | minus => cases he

/-- What may stand behind a value. -/
lemma cases_of_value (h : Orderly d p l) (hp : p.any (·.isValue)) :
    l = [] ∧ d = 0 ∨ l.head?.any (·.isOpening) ∨
      (∃ e r, d = e + 1 ∧ l = mark ')' :: r ∧ Orderly e (some (mark ')')) r) ∨
        ∃ o r, l = mark (Operator.symbol o) :: r ∧ Orderly d (some (mark o.symbol)) r := by
  cases h with
  | nil => exact .inl ⟨rfl, rfl⟩
  | number => exact .inr (.inl rfl)
  | constant => exact .inr (.inl rfl)
  | function => exact .inr (.inl rfl)
  | opening => exact .inr (.inl rfl)
  | closing _ h => exact .inr (.inr (.inl ⟨_, _, rfl, rfl, h⟩))
  | @operator _ _ o l _ h => exact .inr (.inr (.inr ⟨o, l, rfl, h⟩))
  | minus hn =>
    rw [hp] at hn
    cases hn

/-- What may stand where no value is. -/
lemma cases_of_no_value (h : Orderly d p l) (hp : p.any (·.isValue) = false) :
    l.head?.any (·.isOpening) ∨ ∃ r, l = mark '-' :: r ∧
      (p.any (·.isOperator) → r.head?.any (·.isOpening)) ∧ Orderly d (some (mark '-')) r := by
  cases h with
  | nil hv => rw [hp] at hv; cases hv
  | number => exact .inl rfl
  | constant => exact .inl rfl
  | function => exact .inl rfl
  | opening => exact .inl rfl
  | closing hv => rw [hp] at hv; cases hv
  | operator hv => rw [hp] at hv; cases hv
  | minus _ ho h => exact .inr ⟨_, rfl, ho, h⟩

/-- Where a sum stops, the text ends or the group that it is in. -/
lemma cases_of_stops (h : Orderly d p l) (hp : p.any (·.isValue)) (hs : Category.sum.Stops l) :
    l = [] ∧ d = 0 ∨ ∃ e r, d = e + 1 ∧ l = mark ')' :: r ∧ Orderly e (some (mark ')')) r := by
  obtain h | ho | h | ⟨o, r, rfl, -⟩ := h.cases_of_value hp
  · exact .inl h
  · obtain ⟨a, ha, ho⟩ := (Option.any_eq_true _ _).mp ho
    rw [hs a ha] at ho
    cases ho
  · exact .inr h
  · exact absurd (hs _ rfl) (by cases o <;> decide)

/-- The list in a group is a sum, and the group is closed behind it. -/
lemma parses_group (h : Orderly (d + 1) (some (mark '(')) l) (ih : ParsesBelow n)
    (hn : l.length < n) :
    ∃ m r t, l = m ++ mark ')' :: r ∧ Derives .sum m t ∧ Orderly d (some (mark ')')) r := by
  obtain ⟨m, r, t, rfl, hm, hr, hs⟩ := ih (c := .sum) h hn ⟨rfl, rfl⟩
  obtain ⟨-, hd⟩ | ⟨e, r, hd, rfl, hr⟩ := hr.cases_of_stops hm.any_getLast?.1 hs
  · cases hd
  · cases hd
    exact ⟨m, r, t, rfl, hm, hr⟩

/-- An operand begins with an atom. -/
lemma parses_atom (h : Orderly d p l) (hl : l.head?.any (·.isOpening))
    (ih : ParsesBelow l.length) : Parses .atom d l := by
  cases h with
  | nil => cases hl
  | number hs _ h => exact ⟨[_], _, _, rfl, .number hs, h, trivial⟩
  | constant h => exact ⟨[_], _, _, rfl, .constant, h, trivial⟩
  | @function _ _ f l h =>
    obtain ⟨m, r, t, rfl, hm, hr⟩ := h.parses_group ih (by simp)
    have hr : Orderly d (name f.name.toList :: mark '(' :: (m ++ [mark ')'])).getLast? r := by
      rwa [← List.cons_append, ← List.cons_append, List.getLast?_concat]
    exact ⟨_, r, _, by simp, .call hm, hr, trivial⟩
  | opening h =>
    obtain ⟨m, r, t, rfl, hm, hr⟩ := h.parses_group ih (by simp)
    have hr : Orderly d (mark '(' :: (m ++ [mark ')'])).getLast? r := by
      rwa [← List.cons_append, List.getLast?_concat]
    exact ⟨_, r, _, by simp, .group hm, hr, trivial⟩
  | closing => cases hl
  | @operator _ _ o _ => cases o <;> cases hl
  | minus => cases hl

lemma length_rest_lt {c : Category} (h : Derives c m t) (r : List Lexeme) :
    r.length < (m ++ r).length := by
  have := List.length_pos_iff.mpr h.ne_nil
  rw [List.length_append]
  omega

/-- A category does not go on where an operand begins. -/
lemma stops_of_isOpening (hr : r.head?.any (·.isOpening)) : Category.power.Stops r := by
  intro e
  rw [e] at hr
  cases hr

/-- An operand begins with a power. -/
lemma parses_power (h : Orderly d p l) (hl : l.head?.any (·.isOpening))
    (ih : ParsesBelow l.length) : Parses .power d l := by
  obtain ⟨m, r, t, rfl, hm, hr, -⟩ := h.parses_atom hl ih
  have hn := length_rest_lt hm r
  have stop (hs : Category.power.Stops r) : Parses .power d (m ++ r) :=
    ⟨m, r, t, rfl, .atom hm, hr, hs⟩
  obtain ⟨rfl, -⟩ | ho | ⟨e, r, -, rfl, -⟩ | ⟨o, r, rfl, ht⟩ := hr.cases_of_value hm.any_getLast?.1
  · exact stop (by simp [Category.Stops])
  · exact stop (stops_of_isOpening ho)
  · exact stop (by simp [Category.Stops])
  · by_cases ho : o = .power
    · subst ho
      have hp : (some (mark Operator.power.symbol)).any (·.isOperator) :=
        Lexeme.isOperator_symbol .power
      obtain ⟨f, r, u, rfl, hf, hr, hs⟩ :=
        ih (c := .factor) ht ((Nat.lt_succ_self _).trans hn) (.inr hp)
      refine ⟨m ++ mark '^' :: f, r, _, by simp [Operator.symbol], .power hm hf, ?_, hs⟩
      rwa [getLast?_append_cons hf.ne_nil]
    · exact stop (by cases o <;> simp [Category.Stops, Operator.symbol] at ho ⊢)

/-- A factor is a power with a sign or without. -/
lemma parses_factor (h : Orderly d p l) (hl : Category.factor.Begins p l)
    (ih : ParsesBelow l.length) : Parses .factor d l := by
  by_cases ho : l.head?.any (·.isOpening)
  · obtain ⟨m, r, t, rfl, hm, hr, hs⟩ := h.parses_power ho ih
    exact ⟨m, r, t, rfl, .factor hm, hr, hs⟩
  · have hp : p.any (·.isOperator) := hl.resolve_left ho
    have hv : p.any (·.isValue) = false := by
      cases p with
      | none => rfl
      | some a =>
        cases hv : a.isValue with
        | false => exact hv
        | true =>
          rw [Option.any_some, Lexeme.isOperator_of_isValue hv] at hp
          cases hp
    -- Behind an operator a minus has an operand, which is shorter by the minus.
    obtain h | ⟨l, rfl, hn, h⟩ := h.cases_of_no_value hv
    · exact absurd h ho
    · obtain ⟨m, r, t, rfl, hm, hr, hs⟩ := ih (c := .power) h (by simp) (hn hp)
      refine ⟨mark '-' :: m, r, _, rfl, .negative hm, ?_, hs⟩
      rwa [← List.nil_append (_ :: m), getLast?_append_cons hm.ne_nil]

/-- A product goes on with every operator of its own and every operand. -/
lemma extend_product {signed : Bool} (hm : Derives (.product signed) m t)
    (hr : Orderly d m.getLast? r) (hs : Category.power.Stops r) (ih : ParsesBelow n)
    (hn : r.length < n) : Parses (.product signed) d (m ++ r) := by
  -- The induction is on what is left; the product that has been taken is an accumulator.
  induction hl : r.length using Nat.strong_induction_on generalizing m r t with
  | _ k go =>
    subst hl
    have stop (hs : Category.Stops (.product signed) r) : Parses (.product signed) d (m ++ r) :=
      ⟨m, r, t, rfl, hm, hr, hs⟩
    have times {o : Operator} (ho : o = .multiply ∨ o = .divide) {q : List Lexeme}
        (hq : r = mark o.symbol :: q) (h : Orderly d (some (mark o.symbol)) q) :
        Parses (.product signed) d (m ++ r) := by
      subst hq
      obtain ⟨f, r, u, rfl, hf, hr, hs⟩ :=
        ih (c := .factor) h ((Nat.lt_succ_self _).trans hn) (.inr (Lexeme.isOperator_symbol o))
      have hlt := length_rest_lt hf r
      have := go r.length (hlt.trans (Nat.lt_succ_self _)) (.times ho hm hf)
        (by rwa [getLast?_append_cons hf.ne_nil]) hs (by simp at hn; omega) rfl
      rwa [List.append_assoc, List.cons_append] at this
    obtain ⟨rfl, -⟩ | ho | ⟨e, r, -, rfl, -⟩ | ⟨o, q, hq, h⟩ :=
      hr.cases_of_value hm.any_getLast?.1
    · exact stop (by simp [Category.Stops])
    · obtain ⟨a, b, ha, hb, hj⟩ := hr.exists_juxtaposable hm.any_getLast?.1 ho
      obtain ⟨f, r, u, rfl, hf, hr, hs⟩ := ih (c := .power) hr hn ho
      have hlt := length_rest_lt hf r
      have hb : b ∈ f.head? := by rwa [List.head?_append_of_ne_nil f hf.ne_nil] at hb
      have := go r.length hlt (.juxtaposed hm hf ha hb hj)
        (by rwa [List.getLast?_append_of_ne_nil m hf.ne_nil]) hs (hlt.trans hn) rfl
      rwa [List.append_assoc] at this
    · exact stop (by simp [Category.Stops])
    · cases o with
      | add => exact stop (by simp [hq, Category.Stops, Operator.symbol])
      | subtract => exact stop (by simp [hq, Category.Stops, Operator.symbol])
      | multiply => exact times (.inl rfl) hq h
      | divide => exact times (.inr rfl) hq h
      | power => exact absurd (by rw [hq]; rfl) hs

/-- A list that begins with a product. -/
lemma parses_product {signed : Bool} (h : Orderly d p l)
    (hl : Category.Begins (.product signed) p l) (ih : ParsesBelow l.length) :
    Parses (.product signed) d l := by
  cases signed with
  | false =>
    obtain ⟨m, r, t, rfl, hm, hr, hs⟩ := h.parses_power hl ih
    exact extend_product (.first hm) hr hs ih (length_rest_lt hm r)
  | true =>
    obtain ⟨m, r, t, rfl, hm, hr, hs⟩ := h.parses_factor hl ih
    exact extend_product (.signedFirst hm) hr hs ih (length_rest_lt hm r)

/-- A sum goes on to the end of its group. -/
lemma extend_sum (hm : Derives .sum m t) (hr : Orderly d m.getLast? r)
    (hs : Category.Stops (.product true) r) (ih : ParsesBelow n) (hn : r.length < n) :
    Parses .sum d (m ++ r) := by
  induction hl : r.length using Nat.strong_induction_on generalizing m r t with
  | _ k go =>
    subst hl
    have stop (hs : Category.sum.Stops r) : Parses .sum d (m ++ r) := ⟨m, r, t, rfl, hm, hr, hs⟩
    obtain ⟨rfl, -⟩ | ho | ⟨e, r, -, rfl, -⟩ | ⟨o, q, rfl, h⟩ :=
      hr.cases_of_value hm.any_getLast?.1
    · exact stop (by simp [Category.Stops])
    · obtain ⟨a, ha, ho⟩ := (Option.any_eq_true _ _).mp ho
      obtain rfl | rfl | rfl := hs a ha <;> cases ho
    · exact stop (by simp [Category.Stops])
    · have ho : o = .add ∨ o = .subtract := by
        have := hs _ rfl
        revert this
        cases o <;> decide
      obtain ⟨f, r, u, rfl, hf, hr, hs⟩ := ih (c := .product true) h
        ((Nat.lt_succ_self _).trans hn) (.inr (Lexeme.isOperator_symbol o))
      have hlt := length_rest_lt hf r
      have := go r.length (hlt.trans (Nat.lt_succ_self _)) (.plus ho hm hf)
        (by rwa [getLast?_append_cons hf.ne_nil]) hs (by simp at hn; omega) rfl
      rwa [List.append_assoc, List.cons_append] at this

/-- A list at the start or in a group begins with a sum. -/
lemma parses_sum (h : Orderly d p l) (hp : Category.sum.Begins p l)
    (ih : ParsesBelow l.length) : Parses .sum d l := by
  obtain ho | ⟨l, rfl, -, h⟩ := h.cases_of_no_value hp.1
  · obtain ⟨m, r, t, rfl, hm, hr, hs⟩ := @parses_product _ _ _ false h ho ih
    exact extend_sum (.sum hm) hr hs ih (length_rest_lt hm r)
  · obtain ⟨m, r, t, rfl, hm, hr, hs⟩ :=
      ih (c := .product true) h (by simp) (.inr (Lexeme.isOperator_symbol .subtract))
    have hn : r.length < (mark '-' :: (m ++ r)).length :=
      (length_rest_lt hm r).trans (Nat.lt_succ_self _)
    have hr : Orderly d (mark '-' :: m).getLast? r := by
      rwa [← List.nil_append (_ :: m), getLast?_append_cons hm.ne_nil]
    exact extend_sum (.negated hm) hr hs ih hn

/-- Every category takes a part from every list that it can begin with. -/
theorem parses (n : Nat) : ParsesBelow n := by
  induction n with
  | zero => exact fun _ hn => absurd hn (Nat.not_lt_zero _)
  | succ n ih =>
    intro c d p l h hn hl
    have ih : ParsesBelow l.length := fun h hlt => ih h (by omega)
    cases c with
    | sum => exact h.parses_sum hl ih
    | product signed => exact h.parses_product hl ih
    | factor => exact h.parses_factor hl ih
    | power => exact h.parses_power hl ih
    | atom => exact h.parses_atom hl ih

/-- An orderly list is a sum. -/
theorem exists_derives (h : Orderly 0 none l) : ∃ t, Derives .sum l t := by
  obtain ⟨m, r, t, rfl, hm, hr, hs⟩ := parses _ (c := .sum) h (Nat.lt_succ_self _) ⟨rfl, rfl⟩
  -- No group is open, so the rest where the sum stops is empty.
  obtain ⟨rfl, -⟩ | ⟨e, r, hd, -, -⟩ := hr.cases_of_stops hm.any_getLast?.1 hs
  · exact ⟨t, by rwa [List.append_nil]⟩
  · cases hd

end Orderly

end Reckoner
