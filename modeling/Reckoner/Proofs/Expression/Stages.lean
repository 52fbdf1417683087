import Mathlib
import Reckoner.Proofs.Expression.Order
import Reckoner.Proofs.Expression.Verdict

/-!
# Stage by stage

The value of a text is computed in stages: it is spelled out, checked, cut into tokens, reordered and run.
A text has a value if every stage succeeds (`evaluateSpelled_eq_ok_iff`); a text that comes as far as its
postfix list has the value of that list, or none for the same cause (`evaluateSpelled_eq`).
-/

namespace Reckoner

namespace Expression

lemma read_zero : Lexeme.read (.numeral ['0']) = .ok (.number 0) := by
  have hn : Numeral.ofChars? ['0'] = some ⟨['0'], []⟩ := rfl
  have hv : Numeral.finite? ⟨['0'], []⟩ = some 0 := by decide +kernel
  rw [Lexeme.read, Lexeme.readNumeral, if_neg (by decide), hn]
  simp only [hv]

lemma read_operator (o : Operator) : Lexeme.read (.mark o.symbol) = .ok (.operator o) := by
  rw [Lexeme.read, Lexeme.readMark, Operator.ofChar?_symbol]

lemma read_function (f : Function) : Lexeme.read (.name f.name.toList) = .ok (.function f) := by
  rw [Lexeme.read, Lexeme.readName, String.ofList_toList, Function.ofName?_name]

/-- Whether a text is answered with an outcome; a failure names the text. -/
def IsAnswered (text : String) (outcome : Except Cause Float) : Prop :=
  evaluate text = outcome.mapError fun cause => ⟨cause, some text⟩

/-- A text with the value `x`, stage by stage. -/
structure Computes (s : List Char) (x : Float) : Prop where
  passes : Passes s
  run : ∃ tokens l, Token.tokenize s = .ok tokens ∧ Postfix.reorder [] tokens = .ok l ∧
    Postfix.run [] l = .ok [x]

/-- A spelled-out text has the value that its stages compute. -/
lemma evaluateSpelled_eq_ok_iff {s : List Char} {x : Float} :
    evaluateSpelled s = .ok x ↔ Computes s x := by
  rw [evaluateSpelled, Outcome.bind_eq_ok]
  constructor
  · rintro ⟨⟨⟩, hc, h⟩
    obtain ⟨tokens, ht, h⟩ := Outcome.bind_eq_ok.mp h
    obtain ⟨l, hl, h⟩ := Outcome.bind_eq_ok.mp h
    exact ⟨check_eq_ok_iff.mp hc, tokens, l, ht, hl, Postfix.evaluate_eq_ok_iff.mp h⟩
  · rintro ⟨hc, tokens, l, ht, hl, h⟩
    refine ⟨(), check_eq_ok_iff.mpr hc, ?_⟩
    rw [ht, Outcome.ok_bind]
    exact Outcome.bind_eq_ok.mpr ⟨l, hl, Postfix.evaluate_eq_ok_iff.mpr h⟩

/-- A text that passes the checks and can be reordered has the value of its postfix list. -/
lemma evaluateSpelled_eq {s : List Char} {tokens l : List Token} (hs : Passes s)
    (ht : Token.tokenize s = .ok tokens) (hl : Postfix.reorder [] tokens = .ok l) :
    evaluateSpelled s = Postfix.evaluate l := by
  have hl : Postfix.ofTokens tokens = .ok l := hl
  rw [evaluateSpelled, check_eq_ok_iff.mpr hs, Outcome.ok_bind, ht, Outcome.ok_bind, hl,
    Outcome.ok_bind]

/-- The value of a text from what it spells out and the lexemes of that. -/
lemma evaluate_of_stages {text : String} {s : List Char} {l : List Lexeme} {x : Float}
    (hs : spell text.toList = s) (hl : Lexeme.split s = l)
    (hx : (check s >>= fun _ => l.mapM Lexeme.read >>= fun tokens =>
      Postfix.ofTokens tokens >>= Postfix.evaluate).toOption = some x) :
    evaluate text = .ok x := by
  have h : evaluateSpelled s = check s >>= fun _ => l.mapM Lexeme.read >>= fun tokens =>
      Postfix.ofTokens tokens >>= Postfix.evaluate := by
    rw [evaluateSpelled, Token.tokenize, hl]
  rw [evaluate, Outcome.mapError_eq_ok, hs, h]
  exact Outcome.toOption_eq_some.mp hx

end Expression

end Reckoner
