import Mathlib
import Reckoner.Proofs.Expression.Outline

/-!
# Unary minus

A unary minus becomes a subtraction from zero in one pass over the chunks, in which the groups still to
be closed are kept as countdowns. The pass is described by one equation, `subtractFromZero_cons`, and
the invariant of its countdowns is `Spans`: the chunks that a countdown covers close no group that is
open before them, and the last of them is no operator and opens no group unless it is the last of all.

From the invariant follow the two facts that the checks need: the pass neither hides nor makes a fault in
the parentheses (`depthAfter_subtractFromZero`), and it leaves an operator run exactly where the list is
not tidy (`hasRunAfter_subtractFromZero`).
-/

namespace Reckoner

namespace Expression

open Chunk (mark number name outline symbol outline_nil outline_cons outline_append)

/-- The countdowns after a number of chunks; those that have ended are gone. -/
def advance (k : Nat) (pending : List Nat) : List Nat :=
  (pending.filter (k < ·)).map (· - k)

/-- The parentheses that close where a countdown ends. -/
def closings (k : Nat) (pending : List Nat) : List Chunk :=
  List.replicate (pending.count k) (mark ')')

/-- Whether a minus stands at the start or after an opening parenthesis. -/
def IsLeading (previous : Option Chunk) (k : Chunk) : Prop :=
  k = mark '-' ∧ (previous = none ∨ previous = some (mark '('))

instance (previous : Option Chunk) (k : Chunk) : Decidable (IsLeading previous k) :=
  inferInstanceAs (Decidable (_ ∧ _))

/-- The number of chunks of the operand, for a minus that gets a group of its own. -/
def groupedOperand? (previous : Option Chunk) (k : Chunk) (rest : List Chunk) : Option Nat :=
  if k = mark '-' ∧ previous.any (·.isOperator) then operandLength? rest else none

/-- What is written before a chunk. -/
def opening (previous : Option Chunk) (k : Chunk) (rest : List Chunk) : List Chunk :=
  if IsLeading previous k then [number ['0']]
  else if (groupedOperand? previous k rest).isSome then [mark '(', number ['0']]
  else []

/-- An atom is not empty. -/
lemma atomLength?_pos {l : List Chunk} {n : Nat} (h : atomLength? l = some n) : 0 < n := by
  unfold atomLength? at h
  split at h <;> cases h <;> omega

/-- An operand is not empty. -/
lemma operandLength?_pos {l : List Chunk} {n : Nat} (h : operandLength? l = some n) : 0 < n := by
  obtain ⟨m, hm, rfl⟩ := Option.map_eq_some_iff.mp h
  have := atomLength?_pos hm
  omega

/-- A group of its own is written for an operand after an operator and a minus. -/
lemma groupedOperand?_eq_some {previous : Option Chunk} {k : Chunk} {l : List Chunk} {n : Nat}
    (h : groupedOperand? previous k l = some n) :
    k = mark '-' ∧ previous.any (·.isOperator) ∧ operandLength? l = some n := by
  unfold groupedOperand? at h
  split at h
  · next hk => exact ⟨hk.1, hk.2, h⟩
  · cases h

/-- The pass, one chunk at a time. -/
theorem subtractFromZero_cons (previous : Option Chunk) (pending : List Nat) (k : Chunk)
    (rest : List Chunk) :
    subtractFromZero previous pending (k :: rest) =
      opening previous k rest ++ k :: (closings 1 pending ++
        subtractFromZero (some k)
          ((groupedOperand? previous k rest).toList ++ advance 1 pending) rest) := by
  have heq : subtractFromZero previous pending (k :: rest) =
      opening previous k rest ++ k ::
        (closings 1 ((groupedOperand? previous k rest).toList.map (· + 1) ++ pending) ++
          subtractFromZero (some k)
            (advance 1 ((groupedOperand? previous k rest).toList.map (· + 1) ++ pending)) rest) :=
    rfl
  -- A countdown that starts at a minus is longer than its operand, so it goes on after the minus.
  rw [heq]
  cases h : groupedOperand? previous k rest with
  | none => rfl
  | some n =>
    have hn : 0 < n := operandLength?_pos (groupedOperand?_eq_some h).2.2
    have hc : ((n + 1) :: pending).count 1 = pending.count 1 :=
      List.count_cons_of_ne (by omega)
    have ha : advance 1 ((n + 1) :: pending) = n :: advance 1 pending := by
      simp [advance, hn]
    simp only [Option.toList_some, List.map_cons, List.map_nil, List.singleton_append, closings,
      hc, ha]

/-- The pass writes nothing before a chunk that is no minus, or that follows an operand. -/
lemma subtractFromZero_cons_of_value {previous : Option Chunk} {k : Chunk}
    (h : k ≠ mark '-' ∨ ∃ j, previous = some j ∧ j ≠ mark '(' ∧ j.isOperator = false)
    (pending : List Nat) (l : List Chunk) :
    subtractFromZero previous pending (k :: l) =
      k :: (closings 1 pending ++ subtractFromZero (some k) (advance 1 pending) l) := by
  have hl : ¬IsLeading previous k := by
    rintro ⟨rfl, hp⟩
    obtain h | ⟨j, rfl, hj, -⟩ := h
    · exact h rfl
    · obtain hp | hp := hp
      · cases hp
      · exact hj (Option.some.inj hp)
  have hg : groupedOperand? previous k l = none := by
    rw [groupedOperand?, if_neg]
    rintro ⟨rfl, hp⟩
    obtain h | ⟨j, rfl, -, hj⟩ := h
    · exact h rfl
    · rw [Option.any_some, hj] at hp
      cases hp
  rw [subtractFromZero_cons, opening, if_neg hl, hg]
  rfl

/-- The pass leaves a chunk alone that is no minus. -/
lemma subtractFromZero_cons_of_ne {k : Chunk} (h : k ≠ mark '-') (previous : Option Chunk)
    (l : List Chunk) :
    subtractFromZero previous [] (k :: l) = k :: subtractFromZero (some k) [] l :=
  subtractFromZero_cons_of_value (.inl h) [] l

/-- The pass leaves a chunk alone that stands behind a group. -/
lemma subtractFromZero_close_cons (k : Chunk) (l : List Chunk) :
    subtractFromZero (some (mark ')')) [] (k :: l) = k :: subtractFromZero (some k) [] l :=
  subtractFromZero_cons_of_value (.inr ⟨_, rfl, by simp, rfl⟩) [] l

/-- The chunks that a countdown covers: how deep they start, how many they are, what they are the start
of, and how deep they end. -/
inductive Spans : Nat → Nat → List Chunk → Nat → Prop where
  | last {d e k l} :
    depthStep d (symbol k) = some e →
    l = [] ∨ k ≠ mark '(' ∧ k.isOperator = false →
    Spans d 1 (k :: l) e
  | cons {d e f n k l} :
    depthStep d (symbol k) = some e →
    Spans e n l f →
    Spans d (n + 1) (k :: l) f

/-- A countdown goes on where another one ends. -/
lemma Spans.append {d e f n m : Nat} {l : List Chunk} (h : Spans d n l e)
    (h' : Spans e m (l.drop n) f) : Spans d (n + m) l f := by
  induction h with
  | last hk _ => rw [Nat.add_comm]; exact .cons hk h'
  | cons hk _ ih => rw [Nat.add_right_comm]; exact .cons hk (ih h')

/-- A chunk that is no parenthesis leaves the open groups alone. -/
lemma depthStep_symbol {k : Chunk} (ho : k ≠ mark '(') (hc : k ≠ mark ')') (d : Nat) :
    depthStep d k.symbol = some d := by
  cases k with
  | mark c =>
    have h : c ≠ '(' ∧ c ≠ ')' := ⟨by simpa using ho, by simpa using hc⟩
    simp [symbol, depthStep, h.1, h.2]
  | number s => rfl
  | name s => rfl

/-- A group, with the chunk that opens it, reaches to where it closes or to the end. -/
lemma spans_group {c d g : Nat} {k : Chunk} {l : List Chunk}
    (hk : depthStep c k.symbol = some (d + g + 1)) :
    ∃ e, Spans c (groupLength (g + 1) l + 1) (k :: l) e := by
  induction l generalizing c g k with
  | nil => exact ⟨_, .last hk (.inl rfl)⟩
  | cons j l ih =>
    rw [groupLength]
    split
    · next hj =>
      obtain ⟨e, he⟩ := ih (c := d + g + 1) (g := g + 1) (k := j) (by rw [hj]; rfl)
      exact ⟨e, .cons hk he⟩
    · next ho =>
      split
      · next hj =>
        subst hj
        split
        · exact ⟨_, .cons hk (.last (e := d + g) rfl (.inr ⟨by simp, rfl⟩))⟩
        · next hg =>
          obtain ⟨g, rfl⟩ : ∃ g', g = g' + 1 := ⟨g - 1, by omega⟩
          obtain ⟨e, he⟩ := ih (c := d + (g + 1) + 1) (g := g) (k := mark ')') rfl
          exact ⟨e, .cons hk he⟩
      · next hc =>
        obtain ⟨e, he⟩ := ih (depthStep_symbol ho hc (d + g + 1))
        exact ⟨e, .cons hk he⟩

/-- An atom closes no group that is open before it. -/
lemma spans_atom {n : Nat} {l : List Chunk} (h : atomLength? l = some n) (d : Nat) :
    ∃ e, Spans d n l e := by
  unfold atomLength? at h
  split at h <;> cases h
  · exact ⟨d, .last rfl (.inr ⟨by simp, rfl⟩)⟩
  · obtain ⟨e, he⟩ := spans_group (c := d) (d := d) (g := 0) (k := mark '(') rfl
    exact ⟨e, .cons rfl he⟩
  · exact ⟨d, .last rfl (.inr ⟨by simp, rfl⟩)⟩
  · exact spans_group (d := d) (g := 0) rfl

/-- The powers after an atom close no group that is open before it. -/
lemma Spans.powers {d e n : Nat} {l r : List Chunk} (h : Spans d n l e) (hr : l.drop n = r) :
    ∃ f, Spans d (n + powersLength r) l f := by
  fun_induction powersLength r generalizing e n with
  | case1 rest j ha ih =>
    obtain ⟨f, hf⟩ := spans_atom ha e
    have hm : Spans e (j + 2) (mark '^' :: mark '-' :: rest) f := .cons rfl (.cons rfl hf)
    have hd : l.drop (n + (j + 2)) = rest.drop j := by
      rw [← List.drop_drop, hr]
      rfl
    obtain ⟨g, hg⟩ := ih (h.append (hr ▸ hm)) hd
    exact ⟨g, by rwa [Nat.add_assoc] at hg⟩
  | case2 => exact ⟨e, h⟩
  | case3 rest _ j ha ih =>
    obtain ⟨f, hf⟩ := spans_atom ha e
    have hm : Spans e (j + 1) (mark '^' :: rest) f := .cons rfl hf
    have hd : l.drop (n + (j + 1)) = rest.drop j := by
      rw [← List.drop_drop, hr]
      rfl
    obtain ⟨g, hg⟩ := ih (h.append (hr ▸ hm)) hd
    exact ⟨g, by rwa [Nat.add_assoc] at hg⟩
  | case4 => exact ⟨e, h⟩
  | case5 => exact ⟨e, h⟩

/-- An operand closes no group that is open before it. -/
theorem spans_operand {n : Nat} {l : List Chunk} (h : operandLength? l = some n) (d : Nat) :
    ∃ e, Spans d n l e := by
  obtain ⟨m, hm, rfl⟩ := Option.map_eq_some_iff.mp h
  obtain ⟨e, he⟩ := spans_atom hm d
  exact he.powers rfl

lemma mem_advance {k n : Nat} {pending : List Nat} (h : n ∈ advance k pending) :
    0 < n ∧ n + k ∈ pending := by
  simp only [advance, List.mem_map, List.mem_filter, decide_eq_true_eq] at h
  obtain ⟨m, ⟨hm, hlt⟩, rfl⟩ := h
  rw [Nat.sub_add_cancel (by omega)]
  exact ⟨by omega, hm⟩

lemma Spans.of_mem_advance {d n : Nat} {k : Chunk} {l : List Chunk} {pending : List Nat}
    (h : ∀ n ∈ pending, ∃ e, Spans d n (k :: l) e) (hn : n ∈ advance 1 pending) :
    ∃ e f, depthStep d k.symbol = some e ∧ Spans e n l f := by
  obtain ⟨hpos, hm⟩ := mem_advance hn
  obtain ⟨f, hf⟩ := h _ hm
  cases hf with
  | last => omega
  | cons hk hl => exact ⟨_, f, hk, hl⟩

/-- Every countdown ends at a chunk or goes on after it. -/
lemma length_advance {pending : List Nat} (h : ∀ n ∈ pending, 0 < n) :
    (advance 1 pending).length + pending.count 1 = pending.length := by
  induction pending with
  | nil => rfl
  | cons n pending ih =>
    obtain ⟨hn, hp⟩ := List.forall_mem_cons.mp h
    have ih := ih hp
    simp only [advance, List.length_map] at ih ⊢
    by_cases h₁ : n = 1
    · subst h₁
      simpa [← Nat.add_assoc] using ih
    · have : 1 < n := by omega
      simp only [List.filter_cons, this, decide_true, if_true, List.length_cons,
        List.count_cons_of_ne h₁]
      omega

lemma Spans.pos {d n e : Nat} {l : List Chunk} (h : Spans d n l e) : 0 < n := by
  cases h <;> omega

/-- What is written before a chunk opens one group for each operand that gets a group of its own. -/
lemma depthAfter_opening (d : Nat) (previous : Option Chunk) (k : Chunk) (l : List Chunk)
    (s : List Char) :
    depthAfter d (outline (opening previous k l) ++ s) =
      depthAfter (d + (groupedOperand? previous k l).toList.length) s := by
  unfold opening
  split
  · next h =>
    have hg : groupedOperand? previous k l = none := by
      rw [groupedOperand?, if_neg]
      rintro ⟨-, ho⟩
      obtain h | h := h.2 <;> rw [h] at ho <;> cases ho
    rw [hg]
    rfl
  · cases h : groupedOperand? previous k l with
    | none => rfl
    | some n => rfl

lemma depthAfter_closings (d k : Nat) (pending : List Nat) (s : List Char) :
    depthAfter (d + pending.count k) (outline (closings k pending) ++ s) = depthAfter d s := by
  rw [closings, outline, List.map_replicate]
  generalize pending.count k = n
  induction n with
  | zero => rfl
  | succ n ih =>
    rw [List.replicate_succ, List.cons_append, ← Nat.add_assoc]
    exact ih

/-- The groups that a chunk leaves open do not depend on those below. -/
lemma depthStep_add {d e : Nat} {c : Char} (h : depthStep d c = some e) (n : Nat) :
    depthStep (d + n) c = some (e + n) := by
  have := depthAfter_add (d := d) (e := e) (s := [c])
    (by rw [depthAfter_cons, h]; rfl) n
  rw [depthAfter_cons] at this
  simpa using this

/-- Countdowns that a new operand joins cover what they have to. -/
lemma Spans.next {d e : Nat} {previous : Option Chunk} {k : Chunk} {l : List Chunk}
    {pending : List Nat} (h : ∀ n ∈ pending, ∃ e, Spans d n (k :: l) e)
    (hk : depthStep d k.symbol = some e) :
    ∀ n ∈ (groupedOperand? previous k l).toList ++ advance 1 pending, ∃ f, Spans e n l f := by
  intro n hn
  rcases List.mem_append.mp hn with hn | hn
  · exact spans_operand (groupedOperand?_eq_some (by simpa using hn)).2.2 e
  · obtain ⟨f, g, hf, hg⟩ := Spans.of_mem_advance h hn
    rw [hk] at hf
    cases hf
    exact ⟨g, hg⟩

/-- A chunk that closes a group which is not open is not covered by any countdown. -/
lemma Spans.pending_eq_nil {d : Nat} {k : Chunk} {l : List Chunk} {pending : List Nat}
    (h : ∀ n ∈ pending, ∃ e, Spans d n (k :: l) e) (hk : depthStep d k.symbol = none) :
    pending = [] := by
  cases pending with
  | nil => rfl
  | cons n pending =>
    obtain ⟨e, he⟩ := h n (by simp)
    cases he with
    | last hs _ => rw [hk] at hs; cases hs
    | cons hs _ => rw [hk] at hs; cases hs

/-- Behind every chunk there is a depth from which the countdowns cover what they have to. -/
lemma Spans.exists_next {d : Nat} {previous : Option Chunk} {k : Chunk} {l : List Chunk}
    {pending : List Nat} (h : ∀ n ∈ pending, ∃ e, Spans d n (k :: l) e) :
    ∃ d, ∀ n ∈ (groupedOperand? previous k l).toList ++ advance 1 pending, ∃ e, Spans d n l e := by
  cases hk : depthStep d k.symbol with
  | some e => exact ⟨e, Spans.next h hk⟩
  | none =>
    -- Without countdowns the depth is free to choose, and from one a group can be closed.
    obtain rfl := Spans.pending_eq_nil h hk
    obtain ⟨e, he⟩ : ∃ e, depthStep 1 k.symbol = some e := by
      unfold depthStep
      split
      · exact ⟨_, rfl⟩
      · split <;> exact ⟨_, rfl⟩
    exact ⟨e, Spans.next (by simp) he⟩

/-- Turning a unary minus into a subtraction neither hides nor makes a fault in the parentheses. -/
theorem depthAfter_subtractFromZero {d : Nat} {previous : Option Chunk} {pending : List Nat}
    {l : List Chunk} (h : ∀ n ∈ pending, ∃ e, Spans d n l e) :
    depthAfter (d + pending.length) (outline (subtractFromZero previous pending l)) =
      depthAfter d (outline l) := by
  induction l generalizing d previous pending with
  | nil =>
    cases pending with
    | nil => rfl
    | cons n pending =>
      obtain ⟨e, he⟩ := h n (by simp)
      cases he
  | cons k l ih =>
    rw [subtractFromZero_cons, outline_append, depthAfter_opening, outline_cons, outline_append,
      outline_cons, depthAfter_cons, depthAfter_cons]
    cases hk : depthStep d k.symbol with
    | some e =>
      -- The groups that the pass has opened are as many as its countdowns, before the chunk and after.
      have hlen : e + (pending.length + (groupedOperand? previous k l).toList.length) =
          e + ((groupedOperand? previous k l).toList ++ advance 1 pending).length +
            pending.count 1 := by
        have := length_advance fun n hn => (h n hn).elim fun _ he => he.pos
        rw [List.length_append]
        omega
      rw [Nat.add_assoc, depthStep_add hk, Option.bind_some, Option.bind_some, hlen,
        depthAfter_closings]
      exact ih (Spans.next h hk)
    | none =>
      -- Where a group is closed that is not open, no countdown goes on, so no group of the pass is
      -- open that could hide it.
      have hp := Spans.pending_eq_nil h hk
      have hg : groupedOperand? previous k l = none := by
        rw [groupedOperand?, if_neg]
        rintro ⟨rfl, -⟩
        cases hk
      rw [hp, hg]
      simp only [Option.toList_none, List.length_nil, Nat.add_zero, hk, Option.bind_none]

lemma isOperatorChar_symbol (k : Chunk) : isOperatorChar k.symbol = k.isOperator := by
  cases k <;> rfl

/-- An operand starts where one is found. -/
lemma startsOperand_iff {l : List Chunk} (h : ∀ k ∈ l, k.Proper) :
    StartsOperand (outline l) ↔ (operandLength? l).isSome := by
  rw [operandLength?, Option.isSome_map]
  cases l with
  | nil => simp [StartsOperand, atomLength?]
  | cons k l =>
    have hk := (List.forall_mem_cons.mp h).1
    simp only [StartsOperand, outline_cons, List.head?_cons, Option.mem_def, Option.some.injEq,
      exists_eq_left']
    cases hk with
    | name hc hr =>
      refine iff_of_true (.inr (.inr (.inl rfl))) ?_
      unfold atomLength?
      split <;> first | rfl | simp_all
    | whole hc hr => exact iff_of_true (.inl rfl) rfl
    | point hw hr => exact iff_of_true (.inl rfl) rfl
    | @mark c ha hd hp =>
      simp only [symbol, ha, hd, hp, reduceCtorEq, false_or]
      by_cases hc : c = '('
      · subst hc
        exact iff_of_true rfl rfl
      · refine iff_of_false hc ?_
        simp [atomLength?, hc]

/-- What is written before a chunk, for the operators next to it: it hides a run exactly where a minus
has an operand. -/
lemma hasRunAfter_opening {previous : Option Chunk} {k : Chunk} {l : List Chunk}
    (hl : ∀ k ∈ l, k.Proper) (s : List Char) :
    hasRunAfter (previous.any (·.isOperator)) (outline (opening previous k l) ++ k.symbol :: s) =
        false ↔
      (previous.any (·.isOperator) → isOperatorChar k.symbol →
        k.symbol = '-' ∧ StartsOperand (outline l)) ∧
          hasRunAfter (isOperatorChar k.symbol) s = false := by
  unfold opening
  split
  · next h =>
    obtain ⟨rfl, hp⟩ := h
    have hf : previous.any (·.isOperator) = false := by
      obtain rfl | rfl := hp <;> rfl
    rw [hf]
    simp [hasRunAfter, symbol, show isOperatorChar '0' = false from rfl]
  · split
    · next h =>
      obtain ⟨n, hn⟩ := Option.isSome_iff_exists.mp h
      obtain ⟨rfl, hp, hs⟩ := groupedOperand?_eq_some hn
      have ho : StartsOperand (outline l) :=
        (startsOperand_iff hl).mpr (Option.isSome_iff_exists.mpr ⟨n, hs⟩)
      simp [hasRunAfter, symbol, show isOperatorChar '0' = false from rfl,
        show isOperatorChar '(' = false from rfl, ho]
    · next h =>
      rw [outline_nil, List.nil_append, hasRunAfter, Bool.or_eq_false_iff]
      refine and_congr_left fun _ => ?_
      cases hp : previous.any (·.isOperator) with
      | false => simp
      | true =>
        rw [Bool.true_and, Bool.eq_false_iff, startsOperand_iff hl]
        refine ⟨fun hk _ hc => absurd hc hk, fun hk hc => h ?_⟩
        obtain ⟨hm, hs⟩ := hk rfl hc
        have hm : k = mark '-' := by
          cases k with
          | mark c => exact congrArg mark hm
          | name s => cases hm
          | number s => cases hm
        rwa [groupedOperand?, if_pos ⟨hm, hp⟩]

/-- Closing a group parts no two operators. -/
lemma hasRunAfter_closings {k : Chunk} {pending : List Nat} {r : List Chunk}
    (h : 1 ∈ pending → r = [] ∨ k.isOperator = false) :
    hasRunAfter k.isOperator (outline (closings 1 pending) ++ outline r) =
      hasRunAfter k.isOperator (outline r) := by
  have step (n : Nat) (s : List Char) :
      hasRunAfter false (List.replicate n ')' ++ s) = hasRunAfter false s := by
    induction n with
    | zero => rfl
    | succ n ih => rw [List.replicate_succ, List.cons_append, hasRunAfter_cons rfl, ih]
  rw [closings, outline, List.map_replicate]
  cases hn : pending.count 1 with
  | zero => rfl
  | succ n =>
    have hm : 1 ∈ pending := List.count_pos_iff.mp (by omega)
    rw [List.replicate_succ, List.cons_append, symbol, hasRunAfter_cons rfl, step]
    obtain rfl | hk := h hm
    · rfl
    · rw [hk]

/-- After the pass an operator run stands exactly where the list was not tidy. -/
theorem hasRunAfter_subtractFromZero {d : Nat} {previous : Option Chunk} {pending : List Nat}
    {l : List Chunk} (hl : ∀ k ∈ l, k.Proper) (h : ∀ n ∈ pending, ∃ e, Spans d n l e) :
    hasRunAfter (previous.any (·.isOperator)) (outline (subtractFromZero previous pending l)) =
        false ↔
      Tidy (previous.any (·.isOperator)) (outline l) := by
  induction l generalizing d previous pending with
  | nil => exact iff_of_true rfl trivial
  | cons k l ih =>
    obtain ⟨-, hl⟩ := List.forall_mem_cons.mp hl
    -- A countdown ends at an operand or at the end, never between two operators.
    have hr : 1 ∈ pending → subtractFromZero (some k)
        ((groupedOperand? previous k l).toList ++ advance 1 pending) l = [] ∨
          k.isOperator = false := by
      intro hm
      obtain ⟨e, he⟩ := h 1 hm
      cases he with
      | last _ he => exact he.imp (fun e => by rw [e]; rfl) And.right
      | cons _ he => exact absurd he.pos (by omega)
    obtain ⟨d, hn⟩ := @Spans.exists_next d previous k l pending h
    rw [subtractFromZero_cons, outline_append, outline_cons, hasRunAfter_opening hl,
      outline_append, isOperatorChar_symbol, hasRunAfter_closings hr, outline_cons, Tidy,
      isOperatorChar_symbol]
    exact and_congr_right fun _ => @ih d (some k) _ hl hn

lemma proper_opening {previous : Option Chunk} {k : Chunk} {l : List Chunk} :
    ∀ j ∈ opening previous k l, j = mark '(' ∨ j = number ['0'] := by
  unfold opening
  split
  · simp
  · split <;> simp

/-- A chunk that is followed by a text is followed by it after the pass, or by a parenthesis, or it is an
opening parenthesis itself. -/
lemma endsBefore_subtractFromZero {k : Chunk} {pending : List Nat} {l : List Chunk}
    (hl : ∀ j ∈ l, j.Proper) (h : ∀ c ∈ (Chunk.join l).head?, k.EndsBefore c) :
    ∀ c ∈ (Chunk.join (subtractFromZero (some k) pending l)).head?, k.EndsBefore c := by
  cases l with
  | nil => simp [subtractFromZero]
  | cons j l =>
    have hj := (List.forall_mem_cons.mp hl).1
    rw [subtractFromZero_cons]
    unfold opening
    split
    · next hi =>
      obtain ⟨-, hi⟩ := hi
      obtain hi | hi := hi
      · cases hi
      · cases hi
        exact fun _ _ => trivial
    · split
      · rintro c ⟨⟩
        exact Chunk.endsBefore_of_mark Chunk.proper_open k
      · rw [List.nil_append, hj.head?_join]
        rwa [hj.head?_join] at h

/-- The pass leads from canonical lists to canonical lists. -/
theorem canonical_subtractFromZero {previous : Option Chunk} {pending : List Nat}
    {l : List Chunk} (h : Chunk.Canonical l) :
    Chunk.Canonical (subtractFromZero previous pending l) := by
  induction l generalizing previous pending with
  | nil => trivial
  | cons k l ih =>
    obtain ⟨hk, hs, hl⟩ := h
    have closed (n : Nat) {r : List Chunk} (hr : Chunk.Canonical r) :
        Chunk.Canonical (List.replicate n (mark ')') ++ r) := by
      induction n with
      | zero => exact hr
      | succ n ih => exact .mark_cons Chunk.proper_close ih
    have hc : Chunk.Canonical (k :: (closings 1 pending ++ subtractFromZero (some k)
        ((groupedOperand? previous k l).toList ++ advance 1 pending) l)) := by
      refine ⟨hk, ?_, closed _ (ih hl)⟩
      unfold closings
      cases pending.count 1 with
      | zero => exact endsBefore_subtractFromZero hl.proper hs
      | succ n =>
        rintro c ⟨⟩
        exact Chunk.endsBefore_of_mark Chunk.proper_close k
    have zero {r : List Chunk} (hr : Chunk.Canonical (mark '-' :: r)) :
        Chunk.Canonical (number ['0'] :: mark '-' :: r) := by
      refine ⟨.whole rfl (by simp), ?_, hr⟩
      rintro c ⟨⟩
      exact ⟨rfl, fun h => by cases h⟩
    rw [subtractFromZero_cons]
    unfold opening
    split
    · next hi =>
      obtain ⟨rfl, -⟩ := hi
      exact zero hc
    · split
      · next hg =>
        obtain ⟨n, hn⟩ := Option.isSome_iff_exists.mp hg
        obtain ⟨rfl, -, -⟩ := groupedOperand?_eq_some hn
        exact .mark_cons Chunk.proper_open (zero hc)
      · exact hc

/-- The pass writes no character that was not there, but for parentheses and zeros. -/
lemma mem_subtractFromZero {previous : Option Chunk} {pending : List Nat} {l : List Chunk}
    {c : Char} (hc : isAllowed c = false) :
    c ∈ outline (subtractFromZero previous pending l) ↔ c ∈ outline l := by
  have hne : c ≠ '(' ∧ c ≠ ')' ∧ c ≠ '0' := by
    refine ⟨?_, ?_, ?_⟩ <;> (rintro rfl; exact absurd hc (by decide))
  induction l generalizing previous pending with
  | nil => rfl
  | cons k l ih =>
    have ho : c ∉ outline (opening previous k l) := by
      intro h
      obtain ⟨j, hj, rfl⟩ := List.mem_map.mp h
      obtain rfl | rfl := proper_opening j hj
      · exact hne.1 rfl
      · exact hne.2.2 rfl
    have hp : c ∉ outline (closings 1 pending) := by
      intro h
      obtain ⟨j, hj, rfl⟩ := List.mem_map.mp h
      rw [closings, List.mem_replicate] at hj
      exact hne.2.1 (by rw [hj.2]; rfl)
    have ih := @ih (some k) ((groupedOperand? previous k l).toList ++ advance 1 pending)
    simp only [subtractFromZero_cons, outline_append, outline_cons, List.mem_append, List.mem_cons,
      ho, hp, ih, false_or]

/-- The pass writes something for every list that is not empty. -/
lemma subtractFromZero_eq_nil_iff {previous : Option Chunk} {pending : List Nat}
    {l : List Chunk} : subtractFromZero previous pending l = [] ↔ l = [] := by
  cases l with
  | nil => exact iff_of_true rfl rfl
  | cons k l => simp [subtractFromZero_cons]

end Expression

end Reckoner
