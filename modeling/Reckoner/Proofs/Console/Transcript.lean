import Mathlib
import Reckoner.Console
import Reckoner.Proofs.Equation.Roots
import Reckoner.Proofs.Equation.Ruling

/-!
# Transcripts of the console

A line is answered by all of its lines or by the report of one failure, and by nothing else: with settings that
could be loaded no answer ends the console (`exists_reply`). The prompt loop prints these answers one after the
other (`loop_eq`), and a problem given as arguments gets the same answer as at the prompt (`run_transcript`).

What the calculations behind an answer rely on is so (`isMet_of_demands`): the quadratic formula divides by twice a
coefficient that is not zero, and doubling does not make it zero (`two_mul_beq_zero_of_check`); an equation holds
no empty numeral (`spells_of_terms?`).
-/

namespace Reckoner

namespace Console

open Text (Blank)

variable {settings : Settings} {line : String}

/-- How a line with a problem is answered, and whether the answer is a failure. -/
inductive Answers (settings : Settings) (line : String) : Reply → Prop
  | lines {l} :
    answer (.ok settings) settings line = .ok l →
    Answers settings line ⟨printed l, false⟩
  | report {f} :
    answer (.ok settings) settings line = .error (.failure f) →
    Answers settings line ⟨printed (report f), true⟩

/-- The line ends the prompt loop. -/
def Stops (line : String) : Prop :=
  lower (Text.trim line.toList) = "exit" ∨ lower (Text.trim line.toList) = "quit"

instance (line : String) : Decidable (Stops line) :=
  inferInstanceAs (Decidable (_ ∨ _))

/-- What the prompt loop prints after the prompt for a line. -/
def said (reply : String → Reply) (line : String) : String :=
  if Blank line.toList then "" else (reply line).out

/-- What the prompt loop prints for lines that do not end it. -/
def spoken (reply : String → Reply) (lines : List String) : String :=
  String.join (lines.map fun line => prompt ++ said reply line)

lemma spoken_nil (reply : String → Reply) : spoken reply [] = "" :=
  rfl

lemma spoken_cons (reply : String → Reply) (line : String) (lines : List String) :
    spoken reply (line :: lines) = prompt ++ said reply line ++ spoken reply lines := by
  rw [spoken, List.map_cons, String.join_cons]
  rfl

lemma failing_eq {α : Type} (x : Except Failure α) :
    (∃ a, failing x = .ok a) ∨ ∃ f, failing x = .error (.failure f) := by
  cases x with
  | ok a => exact .inl ⟨a, rfl⟩
  | error f => exact .inr ⟨f, rfl⟩

lemma calculate_eq (problem : String) :
    calculate (.ok settings) problem = failing (Display.calculate settings problem) :=
  rfl

lemma answerProblem_eq (problem : String) :
    (∃ l, answerProblem (.ok settings) settings problem = .ok l) ∨
      ∃ f, answerProblem (.ok settings) settings problem = .error (.failure f) := by
  rw [answerProblem, calculate_eq]
  split
  · obtain ⟨solution, hs⟩ | ⟨f, hf⟩ := failing_eq (Linear.solve problem)
    · obtain ⟨text, ht⟩ | ⟨f, hf⟩ := failing_eq (Display.calculate settings problem)
      · exact .inl ⟨_, by rw [hs, Outcome.ok_bind, ht]; rfl⟩
      · exact .inr ⟨f, by rw [hs, Outcome.ok_bind, hf]; rfl⟩
    · exact .inr ⟨f, by rw [hf]; rfl⟩
  · obtain ⟨text, ht⟩ | ⟨f, hf⟩ := failing_eq (Display.calculate settings problem)
    · exact .inl ⟨_, by rw [ht]; rfl⟩
    · exact .inr ⟨f, by rw [hf]; rfl⟩

/-- Every line has an answer: nothing but a failure of the calculator ends a problem. -/
theorem exists_reply (settings : Settings) (line : String) : ∃ r, Answers settings line r := by
  have hanswer : (∃ l, answer (.ok settings) settings line = .ok l) ∨
      ∃ f, answer (.ok settings) settings line = .error (.failure f) := by
    rw [answer]
    split
    · exact answerProblem_eq _
    · split
      · exact failing_eq _
      · split
        · exact failing_eq _
        · exact answerProblem_eq _
  obtain ⟨l, hl⟩ | ⟨f, hf⟩ := hanswer
  · exact ⟨_, .lines hl⟩
  · exact ⟨_, .report hf⟩

lemma reply_eq {r : Reply} (h : Answers settings line r) :
    reply (.ok settings) settings line = .ok r := by
  cases h with
  | lines h => rw [reply, h]
  | report h => rw [reply, h]

lemma not_stops_of_blank (h : Blank line.toList) : ¬Stops line := by
  rw [Stops, Text.trim_eq_nil_iff.mpr h]
  decide

lemma ofLine_of_stops (h : Stops line) : Action.ofLine line = .stop :=
  if_pos h

lemma ofLine_of_blank (h : Blank line.toList) : Action.ofLine line = .skip := by
  rw [Action.ofLine]
  refine (if_neg (not_stops_of_blank h)).trans (if_pos ?_)
  rw [Text.trim_eq_nil_iff.mpr h]
  rfl

lemma ofLine_of_problem (hs : ¬Stops line) (hb : ¬Blank line.toList) : Action.ofLine line = .solve := by
  rw [Action.ofLine]
  refine (if_neg hs).trans (if_neg ?_)
  rw [List.isEmpty_iff, Text.trim_eq_nil_iff]
  exact hb

lemma turn_of_stops (h : Stops line) : turn (.ok settings) settings (some line) = ⟨"", some (.ok 0)⟩ := by
  rw [turn, ofLine_of_stops h]

/-- A turn that does not end the loop says what the line is answered with and prints the next prompt. -/
lemma turn_of_not_stops {reply : String → Reply} (h : Answers settings line (reply line)) (hs : ¬Stops line) :
    turn (.ok settings) settings (some line) = ⟨said reply line ++ prompt, none⟩ := by
  rw [turn, said]
  by_cases hb : Blank line.toList
  · rw [ofLine_of_blank hb, if_pos hb, String.empty_append]
  · rw [ofLine_of_problem hs hb, if_neg hb, reply_eq h]

/-- After a turn that does not end it, the loop goes on with the other lines. -/
lemma loop_cons {stored : Stored} {out : String} (rest : List String)
    (h : turn stored settings (some line) = ⟨out ++ prompt, none⟩) :
    loop stored settings (line :: rest) =
      { loop stored settings rest with out := prompt ++ out ++ (loop stored settings rest).out } := by
  rw [loop, List.map_cons, List.cons_append, turns, h]
  simp only [loop, String.append_assoc]

/-- The prompt loop answers the lines before the one that ends it, each by itself. -/
theorem loop_eq {reply : String → Reply} (h : ∀ line, Answers settings line (reply line))
    (lines : List String) :
    loop (.ok settings) settings lines =
      ⟨spoken reply (lines.takeWhile fun line => !decide (Stops line)) ++ prompt, .ok (some 0)⟩ := by
  induction lines with
  | nil => rfl
  | cons line rest ih =>
    by_cases hs : Stops line
    · rw [loop, List.map_cons, List.cons_append, turns, turn_of_stops hs,
        List.takeWhile_cons_of_neg (by simpa using hs)]
      rfl
    · rw [loop_cons rest (turn_of_not_stops (h line) hs), ih, List.takeWhile_cons_of_pos (by simpa using hs),
        spoken_cons]
      simp only [String.append_assoc]

lemma toList_printed (ls : List String) :
    (printed ls).toList = ['\n'].intercalate (ls.map String.toList ++ [[]]) := by
  induction ls with
  | nil => rfl
  | cons l ls ih =>
    have hcons : printed (l :: ls) = l ++ "\n" ++ printed ls := String.join_cons
    rw [hcons, String.toList_append, String.toList_append, ih, List.map_cons, List.cons_append,
      List.intercalate_cons_of_ne_nil (by simp)]
    rfl

/-- Lines that are written one after the other are read again. -/
lemma lines_printed {ls : List String} (h : ∀ line ∈ ls, '\n' ∉ line.toList) :
    lines (printed ls) = ls := by
  have hmem : ∀ l ∈ ls.map String.toList ++ [[]], '\n' ∉ l := by
    rw [List.forall_mem_append, List.forall_mem_map]
    exact ⟨h, by simp⟩
  rw [lines, toList_printed, List.splitOn_intercalate _ hmem (by simp)]
  simp

/-- A text of one line is that line. -/
lemma lines_of_one (h : '\n' ∉ line.toList) (hne : line.toList ≠ []) : lines line = [line] := by
  have hsplit : line.toList.splitOn '\n' = [line.toList] := by
    have hmem : ∀ l ∈ [line.toList], '\n' ∉ l := List.forall_mem_singleton.mpr h
    have := List.splitOn_intercalate '\n' hmem (List.cons_ne_nil _ _)
    rwa [List.intercalate_singleton] at this
  rw [lines, hsplit]
  simp [hne]

/-- At the prompt every line gets its answer. -/
theorem run_prompt {reply : String → Reply} (h : ∀ line, Answers settings line (reply line))
    (input : String) :
    run (.ok settings) [] input =
      ⟨spoken reply ((lines input).takeWhile fun line => !decide (Stops line)) ++ prompt,
        .ok (some 0)⟩ :=
  loop_eq h (lines input)

/-- A problem in the arguments gets the same answer. -/
theorem run_arguments {reply : String → Reply} (h : ∀ line, Answers settings line (reply line))
    {arguments : List String} (hne : arguments ≠ []) (input : String) :
    run (.ok settings) arguments input =
      ⟨(reply (String.intercalate " " arguments)).out,
        .ok (some (if (reply (String.intercalate " " arguments)).failed then 1 else 0))⟩ := by
  rw [run]
  simp only [reply_eq (h _)]
  exact if_neg (by simpa using hne)

/-- The prompt before and after the answer to the only line. -/
lemma run_one {reply : String → Reply} (h : ∀ line, Answers settings line (reply line))
    (hline : '\n' ∉ line.toList) (hb : ¬Blank line.toList) (hs : ¬Stops line) :
    run (.ok settings) [] line = ⟨prompt ++ (reply line).out ++ prompt, .ok (some 0)⟩ := by
  have hne : line.toList ≠ [] := by
    intro hnil
    apply hb
    rw [hnil]
    intro c hc
    cases hc
  rw [run_prompt h, lines_of_one hline hne, List.takeWhile_cons_of_pos (by simpa using hs),
    List.takeWhile_nil, spoken_cons, spoken_nil, said, if_neg hb, String.append_empty]

/-- What the calculations behind an answer rely on: that they do not divide by zero, that a term of an equation is
a number, the variable or both, and that the right side is a number. -/
inductive Demand where
  | divisor (x : Float)
  | term (t : Linear.Term)
  | numeral (s : List Char)

/-- The demand is met: no numeral that has to be read is empty. -/
def Demand.IsMet : Demand → Prop
  | .divisor x => (x == 0) = false
  | .term t =>
    (t.numeral = none ∧ t.hasVariable) ∨ ∃ digits n, t.numeral = some digits ∧ Numeral.Spells digits n
  | .numeral s => ∃ n, Numeral.Spells s n

/-- What the calculations behind the answer to a line rely on: the quadratic formula once its coefficients are read
and checked, an equation once its sides are recognised. -/
inductive Demands (line : String) : Demand → Prop
  | divisor {first a b c : List Char} {q : Quadratic.Coefficients} :
    Text.words (Text.trim line.toList) = [first, a, b, c] → lower first = "quad" →
    Quadratic.readCoefficient (String.ofList a) = .ok q.a →
    Quadratic.readCoefficient (String.ofList b) = .ok q.b →
    Quadratic.readCoefficient (String.ofList c) = .ok q.c →
    q.check = .ok () →
    Demands line (.divisor (2 * q.a))
  | term {left right : List Char} {terms : List Linear.Term} {t : Linear.Term} :
    Text.trim line.toList = left ++ '=' :: right →
    Linear.terms? (Text.dropBlanks (Text.trim left)) = some terms → t ∈ terms →
    Demands line (.term t)
  | numeral {left right : List Char} :
    Text.trim line.toList = left ++ '=' :: right →
    Linear.isNumeral (Linear.unsigned (Text.dropBlanks (Text.trim right))) →
    Demands line (.numeral (Linear.unsigned (Text.dropBlanks (Text.trim right))))

/-- The quadratic formula never divides by zero. -/
theorem two_mul_beq_zero_of_check {q : Quadratic.Coefficients} (h : q.check = .ok ()) :
    (2 * q.a == 0) = false := by
  obtain ⟨a, b, c, ha, -, -, hne⟩ := Quadratic.check_eq_ok_iff.mp h
  exact Number.two_mul_beq_zero ha hne

/-- The terms of a left side are numerals, variables or both, and no numeral is empty. -/
theorem spells_of_terms? {s : List Char} {terms : List Linear.Term} (h : Linear.terms? s = some terms)
    {t : Linear.Term} (ht : t ∈ terms) :
    (t.numeral = none ∧ t.hasVariable) ∨ ∃ digits n, t.numeral = some digits ∧ Numeral.Spells digits n := by
  obtain ⟨left, -, rfl⟩ := Linear.terms?_eq_some_iff.mp h
  obtain ⟨⟨signs, body, hs⟩, -, rfl⟩ := List.mem_map.mp ht
  cases body with
  | number l => exact .inr ⟨l.text, l.numeral, rfl, l.spells⟩
  | bare => exact .inl ⟨rfl, rfl⟩
  | multiple l starred => exact .inr ⟨l.text, l.numeral, rfl, l.spells⟩

/-- No answer relies on anything that it does not have. -/
theorem isMet_of_demands {demand : Demand} (h : Demands line demand) : demand.IsMet := by
  cases h with
  | divisor _ _ _ _ _ hcheck => exact two_mul_beq_zero_of_check hcheck
  | term _ hterms ht => exact spells_of_terms? hterms ht
  | numeral _ hnumeral =>
    obtain ⟨l, hl⟩ := Linear.isNumeral_iff.mp hnumeral
    rw [← hl]
    exact ⟨l.numeral, l.spells⟩

/-- With settings that were loaded, there is an answer to every line, which is all its lines or the report of one
failure, and what the calculations behind it rely on is so. At the prompt the lines before the one that ends the
loop get these answers in order, and blank lines get none. A problem of one line given as arguments gets the same
answer, and the status says whether it is a failure. -/
theorem run_transcript (settings : Settings) :
    ∃ reply : String → Reply,
      (∀ line, Answers settings line (reply line) ∧ ∀ demand, Demands line demand → demand.IsMet) ∧
      (∀ input, run (.ok settings) [] input =
        ⟨spoken reply ((lines input).takeWhile fun line => !decide (Stops line)) ++ prompt,
          .ok (some 0)⟩) ∧
      (∀ ls, (∀ line ∈ ls, '\n' ∉ line.toList) → lines (printed ls) = ls) ∧
      (∀ arguments input, arguments ≠ [] → run (.ok settings) arguments input =
        ⟨(reply (String.intercalate " " arguments)).out,
          .ok (some (if (reply (String.intercalate " " arguments)).failed then 1 else 0))⟩) ∧
      ∀ line, '\n' ∉ line.toList → ¬Blank line.toList → ¬Stops line →
        run (.ok settings) [] line = ⟨prompt ++ (reply line).out ++ prompt, .ok (some 0)⟩ := by
  choose reply hreply using exists_reply settings
  refine ⟨reply, fun line => ⟨hreply line, fun _ => isMet_of_demands⟩, run_prompt hreply, fun _ => lines_printed,
    ?_, ?_⟩
  · intro arguments input hne
    exact run_arguments hreply hne input
  · intro line hline hb hs
    exact run_one hreply hline hb hs

/-- At the prompt, a sum and a division by zero; and the division as the only problem. -/
theorem run_transcript_division :
    run (.ok .defaults) [] "1+1\n\n1/0\nquit\n2" =
        ⟨"> = 2\n> > Error 3003: Division by Zero\nDetails: Division by zero\nEquation: 1/0\n> ", .ok (some 0)⟩ ∧
      run (.ok .defaults) ["1/0"] "" =
        ⟨"Error 3003: Division by Zero\nDetails: Division by zero\nEquation: 1/0\n", .ok (some 1)⟩ := by
  obtain ⟨reply, hreply, hprompt, -, harguments, -⟩ := run_transcript .defaults
  have hsum : reply "1+1" = ⟨"= 2\n", false⟩ :=
    Except.ok.inj ((reply_eq (hreply "1+1").1).symm.trans (Outcome.toOption_eq_some.mp (by decide +kernel)))
  have hquotient : reply "1/0" =
      ⟨"Error 3003: Division by Zero\nDetails: Division by zero\nEquation: 1/0\n", true⟩ :=
    Except.ok.inj ((reply_eq (hreply "1/0").1).symm.trans (Outcome.toOption_eq_some.mp (by decide +kernel)))
  have hlines : (lines "1+1\n\n1/0\nquit\n2").takeWhile (fun line => !decide (Stops line)) = ["1+1", "", "1/0"] := by
    decide +kernel
  have hblank : said reply "" = "" := if_pos (Text.trim_eq_nil_iff.mp rfl)
  have hsumBlank : ¬Blank "1+1".toList := Text.trim_eq_nil_iff.not.mp (by decide)
  have hquotientBlank : ¬Blank "1/0".toList := Text.trim_eq_nil_iff.not.mp (by decide)
  refine ⟨?_, ?_⟩
  · rw [hprompt, hlines, spoken_cons, spoken_cons, spoken_cons, spoken_nil, hblank, said, if_neg hsumBlank, hsum,
      said, if_neg hquotientBlank, hquotient]
    exact congrArg (Transcript.mk · (.ok (some 0))) (by decide +kernel)
  · rw [harguments _ _ (List.cons_ne_nil _ _)]
    have hone : String.intercalate " " ["1/0"] = "1/0" := rfl
    rw [hone, hquotient]
    rfl

end Console

end Reckoner
