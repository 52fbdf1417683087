import Mathlib
import Reckoner.Proofs.Expression.Order

/-!
# Words

Reordering and running are handed lists of doubles and texts. Which token a text stands for is looked up
in the names of the operators and of the functions. No two of these agree, nor is one of them a
parenthesis, so the relation `StandsFor` has one case for every kind of word, and a word can be recovered
from its token (`token_inj`).
-/

namespace Reckoner

/-- A word of a list: a double or a text. -/
inductive Word where
  | number (value : Float)
  | text (s : String)

namespace Operator

@[simp] lemma ofName?_name (o : Operator) : ofName? o.name = some o := by
  cases o <;> decide

lemma name_of_ofName? {s : String} {o : Operator} (h : ofName? s = some o) : o.name = s := by
  simpa using List.find?_some h

/-- No operator has the name of a function. -/
lemma ofName?_functionName (f : Function) : ofName? f.name = none := by
  cases f <;> decide

end Operator

namespace Word

/-- The token that a word stands for. -/
def token : Word → Token
  | number x => .number x
  | text s => .ofText s

/-- Whether a word is a number, an operator, a function name or a parenthesis. -/
def IsKnown : Word → Prop
  | number _ => True
  | text s => (∃ o : Operator, o.name = s) ∨ (∃ f : Function, f.name = s) ∨ s = "(" ∨ s = ")"

/-- The parenthesis that a word is, or another character. -/
def symbol (w : Word) : Char :=
  w.token.symbol

/-- The token of each kind of word. -/
inductive StandsFor : Word → Token → Prop where
  | number {x} :
    StandsFor (number x) (.number x)
  | operator {o : Operator} :
    StandsFor (text o.name) (.operator o)
  | function {f : Function} :
    StandsFor (text f.name) (.function f)
  | leftParen :
    StandsFor (text "(") .leftParen
  | rightParen :
    StandsFor (text ")") .rightParen
  | unknown {s} :
    ¬IsKnown (text s) →
    StandsFor (text s) (.unknown s)

@[simp] lemma token_number (x : Float) : (number x).token = .number x := rfl

@[simp] lemma token_operator (o : Operator) : (text o.name).token = .operator o := by
  rw [token, Token.ofText, Operator.ofName?_name]

@[simp] lemma token_function (f : Function) : (text f.name).token = .function f := by
  rw [token, Token.ofText, Operator.ofName?_functionName, Function.ofName?_name]

@[simp] lemma token_leftParen : (text "(").token = .leftParen := by
  cbv

@[simp] lemma token_rightParen : (text ")").token = .rightParen := by
  cbv

lemma token_unknown {s : String} (h : ¬IsKnown (.text s)) : (text s).token = .unknown s := by
  simp only [IsKnown, not_or, not_exists] at h
  obtain ⟨ho, hf, hopen, hclose⟩ := h
  have ho : Operator.ofName? s = none :=
    Option.eq_none_iff_forall_ne_some.mpr fun o e => ho o (Operator.name_of_ofName? e)
  have hf : Function.ofName? s = none :=
    Option.eq_none_iff_forall_ne_some.mpr fun f e => hf f (Function.name_of_ofName? e)
  rw [token, Token.ofText, ho, hf]
  simp only [if_neg hopen, if_neg hclose]

theorem standsFor_token (w : Word) : w.StandsFor w.token := by
  cases w with
  | number x => exact .number
  | text s =>
    by_cases h : IsKnown (.text s)
    · obtain ⟨o, rfl⟩ | ⟨f, rfl⟩ | rfl | rfl := h
      · rw [token_operator]
        exact .operator
      · rw [token_function]
        exact .function
      · rw [token_leftParen]
        exact .leftParen
      · rw [token_rightParen]
        exact .rightParen
    · rw [token_unknown h]
      exact .unknown h

/-- The text of a word stands in its token. -/
lemma StandsFor.text_eq {s : String} {t : Token} (h : (text s).StandsFor t) :
    t.text = s ∧ ∀ x, t ≠ .number x := by
  cases h with
  | operator => exact ⟨rfl, fun x => by rintro ⟨⟩⟩
  | function => exact ⟨rfl, fun x => by rintro ⟨⟩⟩
  | leftParen => exact ⟨rfl, fun x => by rintro ⟨⟩⟩
  | rightParen => exact ⟨rfl, fun x => by rintro ⟨⟩⟩
  | unknown h => exact ⟨rfl, fun x => by rintro ⟨⟩⟩

/-- A word can be recovered from its token. -/
lemma token_inj {v w : Word} : v.token = w.token ↔ v = w := by
  refine ⟨fun h => ?_, congrArg token⟩
  have hv := v.standsFor_token
  have hw := w.standsFor_token
  rw [← h] at hw
  generalize v.token = t at hv hw
  cases v with
  | number x =>
    cases hv
    cases hw
    rfl
  | text s =>
    obtain ⟨hs, hn⟩ := hv.text_eq
    cases w with
    | number y =>
      cases hw
      exact absurd rfl (hn y)
    | text r => rw [← hs, hw.text_eq.1]

end Word

end Reckoner
