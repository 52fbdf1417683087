import Mathlib
import Reckoner.Proofs.Expression.Infix
import Reckoner.Proofs.Expression.Word

/-!
# Running any list of words

Running a list of doubles and texts succeeds exactly on the post-order listings of trees. The invariant is
about the words that have been run: they list a forest, and the stack holds the values of its trees, the last
one on top (`run_eq_ok_iff`). The last word of a forest is the root of its last tree, whose operands take its
place in the forest of the words before it (`listings_cons`), so a list of words lists one forest at most
(`listings_inj`). A word that cannot be run is a `Fault` on the values of the forest before it.
-/

namespace Reckoner

namespace Tree

/-- The word at the root. -/
def word : Tree → Word
  | number x => .number x
  | call f _ => .text f.name
  | binary o _ _ => .text o.name

/-- The operands of the root, the last one first. -/
def operands : Tree → List Tree
  | number _ => []
  | call _ argument => [argument]
  | binary _ left right => [right, left]

/-- The subtrees in post-order: each after the ones in it, those of the left operand first. -/
def nodes : Tree → List Tree
  | number x => [number x]
  | call f argument => argument.nodes ++ [call f argument]
  | binary o left right => left.nodes ++ right.nodes ++ [binary o left right]

/-- The words of a tree in post-order. -/
def listing (t : Tree) : List Word :=
  t.nodes.map word

/-- Why a tree has no value. -/
def failure? (t : Tree) : Option Cause :=
  match t.evaluate with
  | .ok _ => none
  | .error c => some c

/-- The words of a forest, the last tree first. -/
def listings : List Tree → List Word
  | [] => []
  | t :: ts => listings ts ++ t.listing

/-- The values of the trees of a forest. -/
def Values (ts : List Tree) (stack : List Float) : Prop :=
  List.Forall₂ (fun t x => t.evaluate = .ok x) ts stack

@[simp] lemma listing_number (x : Float) : (number x).listing = [.number x] := rfl

@[simp] lemma listing_call (f : Function) (argument : Tree) :
    (call f argument).listing = argument.listing ++ [.text f.name] :=
  List.map_append

@[simp] lemma listing_binary (o : Operator) (left right : Tree) :
    (binary o left right).listing = left.listing ++ right.listing ++ [.text o.name] := by
  simp [listing, nodes, word]

/-- The tokens of the listing are those of the tree in post-order. -/
lemma map_token_listing (t : Tree) : t.listing.map Word.token = t.postorder := by
  induction t with
  | number x => rfl
  | call f argument ih =>
    rw [listing_call, List.map_append, ih, List.map_singleton, Word.token_function, postorder]
  | binary o left right ihl ihr =>
    rw [listing_binary, List.map_append, List.map_append, ihl, ihr, List.map_singleton,
      Word.token_operator, postorder]

/-- The root comes last, after its operands. -/
lemma listings_cons (t : Tree) (ts : List Tree) :
    listings (t :: ts) = listings (t.operands ++ ts) ++ [t.word] := by
  cases t with
  | number x => rfl
  | call f argument => simp [listings, operands, word]
  | binary o left right => simp [listings, operands, word]

/-- A tree is its root and the operands of it. -/
lemma eq_of_operands {t u : Tree} {ts us : List Tree} (hw : t.word = u.word)
    (ho : t.operands ++ ts = u.operands ++ us) : t :: ts = u :: us := by
  rw [← Word.token_inj] at hw
  cases t <;> cases u <;> simp_all [word, operands]

/-- A list of words lists one forest at most. -/
theorem listings_inj {ts us : List Tree} (h : listings ts = listings us) : ts = us := by
  generalize hw : listings ts = words at h
  induction words using List.reverseRecOn generalizing ts us with
  | nil =>
    have empty {ts : List Tree} (h : listings ts = []) : ts = [] := by
      cases ts with
      | nil => rfl
      | cons t ts =>
        rw [listings_cons] at h
        exact absurd h (by simp)
    rw [empty hw, empty h.symm]
  | append_singleton words w ih =>
    cases ts with
    | nil => exact absurd hw (by simp [listings])
    | cons t ts =>
      cases us with
      | nil => exact absurd h (by simp [listings])
      | cons u us =>
        rw [listings_cons] at hw h
        obtain ⟨ht, hwt⟩ := List.append_inj' hw rfl
        obtain ⟨hu, hwu⟩ := List.append_inj' h rfl
        have hword : t.word = u.word := by
          rw [List.singleton_inj.mp hwt, ← List.singleton_inj.mp hwu]
        exact eq_of_operands hword (ih ht hu)

/-- A tree has a value, or the first of its subtrees in post-order that has none fails for the same
cause. -/
lemma findSome?_nodes (t : Tree) : t.nodes.findSome? failure? = t.failure? := by
  have last (t : Tree) : [t].findSome? failure? = t.failure? := by
    rw [List.findSome?_cons]
    cases t.failure? <;> rfl
  induction t with
  | number x => rfl
  | call f argument ih =>
    rw [nodes, List.findSome?_append, ih, last]
    cases h : argument.evaluate with
    | error c => simp [failure?, evaluate, h]
    | ok x => simp [failure?, h]
  | binary o left right ihl ihr =>
    rw [nodes, List.findSome?_append, List.findSome?_append, ihl, ihr, last]
    cases hl : left.evaluate with
    | error c => simp [failure?, evaluate, hl]
    | ok x =>
      cases hr : right.evaluate with
      | error c => simp [failure?, evaluate, hl, hr]
      | ok y => simp [failure?, hl, hr]

end Tree

namespace Postfix

/-- Why a word cannot be run on a stack of values. -/
inductive Fault : List Float → Word → Cause → Prop where
  | unknown {stack s} :
    (∀ o : Operator, o.name ≠ s) →
    (∀ f : Function, f.name ≠ s) →
    Fault stack (.text s) (.unknownOperator s)
  | argument {f : Function} :
    Fault [] (.text f.name) (.missingArgument f.name)
  | operands {stack} {o : Operator} :
    stack.length < 2 →
    Fault stack (.text o.name) (.missingOperand o.name)
  | function {x below c} {f : Function} :
    f.apply x = .error c →
    Fault (x :: below) (.text f.name) c
  | operator {right left below c} {o : Operator} :
    o.apply left right = .error c →
    Fault (right :: left :: below) (.text o.name) c

/-- The words list a forest, and the stack holds the values of its trees. -/
def Leaves (words : List Word) (stack : List Float) : Prop :=
  ∃ ts, Tree.listings ts = words ∧ Tree.Values ts stack

/-- Why a list of words has no value: for the first word that cannot be run on the values of those before
it, or for the number of values at the end. -/
inductive Halts : List Word → Cause → Prop where
  | word {before w after stack c} :
    Leaves before stack →
    Fault stack w c →
    Halts (before ++ w :: after) c
  | left {words stack} :
    Leaves words stack →
    stack.length ≠ 1 →
    Halts words (.valuesLeft stack.length)

/-- Running a word fails exactly for its fault. -/
theorem step_eq_error_iff {stack : List Float} {w : Word} {c : Cause} :
    step stack w.token = .error c ↔ Fault stack w c := by
  constructor
  · intro h
    have hw := w.standsFor_token
    generalize w.token = t at h hw
    cases hw with
    | number => cases h
    | operator =>
      rcases stack with _ | ⟨right, _ | ⟨left, below⟩⟩
      · cases h
        exact .operands (by simp)
      · cases h
        exact .operands (by simp)
      · obtain h | ⟨x, -, h⟩ := Outcome.bind_eq_error.mp h
        · exact .operator h
        · cases h
    | function =>
      cases stack with
      | nil =>
        cases h
        exact .argument
      | cons x below =>
        obtain h | ⟨y, -, h⟩ := Outcome.bind_eq_error.mp h
        · exact .function h
        · cases h
    | leftParen =>
      cases h
      exact .unknown (fun o => by cases o <;> decide) (fun f => by cases f <;> decide)
    | rightParen =>
      cases h
      exact .unknown (fun o => by cases o <;> decide) (fun f => by cases f <;> decide)
    | unknown hs =>
      cases h
      simp only [Word.IsKnown, not_or, not_exists] at hs
      exact .unknown hs.1 hs.2.1
  · intro h
    cases h with
    | @unknown stack s ho hf =>
      have hw := (Word.text s).standsFor_token
      generalize (Word.text s).token = t at hw
      cases hw with
      | operator => exact absurd rfl (ho _)
      | function => exact absurd rfl (hf _)
      | leftParen => rfl
      | rightParen => rfl
      | unknown => rfl
    | argument =>
      rw [Word.token_function]
      rfl
    | @operands stack o hl =>
      rw [Word.token_operator]
      rcases stack with _ | ⟨right, _ | ⟨left, below⟩⟩
      · rfl
      · rfl
      · simp at hl
    | function hf =>
      rw [Word.token_function]
      exact Outcome.bind_eq_error.mpr (.inl hf)
    | operator ho =>
      rw [Word.token_operator]
      exact Outcome.bind_eq_error.mpr (.inl ho)

/-- A word is run by putting a tree with this root in the place of its operands. -/
theorem step_eq_ok_iff {ts : List Tree} {next : List Float} {w : Word} :
    (∃ stack, Tree.Values ts stack ∧ step stack w.token = .ok next) ↔
      ∃ t rest, t.word = w ∧ t.operands ++ rest = ts ∧ Tree.Values (t :: rest) next := by
  constructor
  · rintro ⟨stack, hs, h⟩
    have hw := w.standsFor_token
    generalize w.token = t at h hw
    cases hw with
    | @number x =>
      cases h
      exact ⟨.number x, ts, rfl, rfl, .cons rfl hs⟩
    | @operator o =>
      rcases stack with _ | ⟨y, _ | ⟨x, below⟩⟩
      · cases h
      · cases h
      · obtain ⟨u, us, hy, hus, rfl⟩ := List.forall₂_cons_right_iff.mp hs
        obtain ⟨t, ts, hx, hts, rfl⟩ := List.forall₂_cons_right_iff.mp hus
        obtain ⟨z, hz, ⟨⟩⟩ := Outcome.bind_eq_ok.mp h
        refine ⟨.binary o t u, ts, rfl, rfl, .cons ?_ hts⟩
        rw [Tree.evaluate, hx, Outcome.ok_bind, hy, Outcome.ok_bind, hz]
    | @function f =>
      cases stack with
      | nil => cases h
      | cons x below =>
        obtain ⟨t, ts, hx, hts, rfl⟩ := List.forall₂_cons_right_iff.mp hs
        obtain ⟨y, hy, ⟨⟩⟩ := Outcome.bind_eq_ok.mp h
        refine ⟨.call f t, ts, rfl, rfl, .cons ?_ hts⟩
        rw [Tree.evaluate, hx, Outcome.ok_bind, hy]
    | leftParen => cases h
    | rightParen => cases h
    | unknown => cases h
  · rintro ⟨t, rest, rfl, rfl, h⟩
    obtain ⟨z, below, hz, hs, rfl⟩ := List.forall₂_cons_left_iff.mp h
    cases t with
    | number x =>
      cases hz
      exact ⟨below, hs, rfl⟩
    | call f argument =>
      obtain ⟨x, hx, hz⟩ := Outcome.bind_eq_ok.mp hz
      refine ⟨x :: below, .cons hx hs, ?_⟩
      rw [Tree.word, Word.token_function, step, hz]
      rfl
    | binary o left right =>
      obtain ⟨x, hx, hz⟩ := Outcome.bind_eq_ok.mp hz
      obtain ⟨y, hy, hz⟩ := Outcome.bind_eq_ok.mp hz
      refine ⟨y :: x :: below, .cons hy (.cons hx hs), ?_⟩
      rw [Tree.word, Word.token_operator, step, hz]
      rfl

lemma run_concat (stack : List Float) (tokens : List Token) (t : Token) :
    run stack (tokens ++ [t]) = run stack tokens >>= fun s => step s t := by
  rw [run_append]
  congr
  funext s
  rw [run_cons]
  cases step s t <;> rfl

/-- A list of words is run exactly if it lists a forest whose trees have values. -/
theorem run_eq_ok_iff {words : List Word} {stack : List Float} :
    run [] (words.map Word.token) = .ok stack ↔ Leaves words stack := by
  induction words using List.reverseRecOn generalizing stack with
  | nil =>
    constructor
    · intro h
      cases h
      exact ⟨[], rfl, .nil⟩
    · rintro ⟨ts, hts, hs⟩
      have hnil : ts = [] := Tree.listings_inj hts
      cases hnil
      cases hs
      rfl
  | append_singleton words w ih =>
    rw [List.map_append, List.map_singleton, run_concat, Outcome.bind_eq_ok]
    constructor
    · rintro ⟨mid, hm, h⟩
      obtain ⟨ts, rfl, hs⟩ := ih.mp hm
      obtain ⟨t, rest, rfl, rfl, ht⟩ := step_eq_ok_iff.mp ⟨mid, hs, h⟩
      exact ⟨t :: rest, Tree.listings_cons t rest, ht⟩
    · rintro ⟨ts, hts, hs⟩
      cases ts with
      | nil => exact absurd hts (by simp [Tree.listings])
      | cons t rest =>
        rw [Tree.listings_cons] at hts
        obtain ⟨hrest, hw⟩ := List.append_inj' hts rfl
        obtain ⟨mid, hm, h⟩ := step_eq_ok_iff.mpr ⟨t, rest, List.singleton_inj.mp hw, rfl, hs⟩
        exact ⟨mid, ih.mpr ⟨_, hrest, hm⟩, h⟩

/-- Running fails at the first token that cannot be run. -/
lemma run_eq_error_iff {stack : List Float} {tokens : List Token} {c : Cause} :
    run stack tokens = .error c ↔
      ∃ before t after mid, tokens = before ++ t :: after ∧ run stack before = .ok mid ∧
        step mid t = .error c := by
  constructor
  · intro h
    induction tokens generalizing stack with
    | nil => cases h
    | cons t tokens ih =>
      rw [run_cons] at h
      obtain h | ⟨next, hn, h⟩ := Outcome.bind_eq_error.mp h
      · exact ⟨[], t, tokens, stack, rfl, rfl, h⟩
      · obtain ⟨before, u, after, mid, rfl, hm, hu⟩ := ih h
        refine ⟨t :: before, u, after, mid, rfl, ?_, hu⟩
        rw [run_cons, hn]
        exact hm
  · rintro ⟨before, t, after, mid, rfl, hm, h⟩
    rw [run_append, hm, Outcome.ok_bind, run_cons, h]
    rfl

/-- What a list has no value for. -/
theorem evaluate_eq_error_iff {words : List Word} {c : Cause} :
    evaluate (words.map Word.token) = .error c ↔ Halts words c := by
  rw [evaluate, Outcome.bind_eq_error]
  constructor
  · rintro (h | ⟨stack, hs, h⟩)
    · obtain ⟨before, t, after, mid, e, hm, ht⟩ := run_eq_error_iff.mp h
      obtain ⟨b, r, rfl, rfl, hr⟩ := List.map_eq_append_iff.mp e
      obtain ⟨w, a, rfl, rfl, rfl⟩ := List.map_eq_cons_iff.mp hr
      exact .word (run_eq_ok_iff.mp hm) (step_eq_error_iff.mp ht)
    · have hl := run_eq_ok_iff.mp hs
      split at h
      · cases h
      · next hn =>
        cases h
        refine .left hl ?_
        intro h1
        obtain ⟨x, rfl⟩ := List.length_eq_one_iff.mp h1
        exact hn x rfl
  · intro h
    cases h with
    | @word before w after stack c hb hw =>
      refine .inl (run_eq_error_iff.mpr ⟨before.map Word.token, w.token, after.map Word.token, stack,
        List.map_append, run_eq_ok_iff.mpr hb, step_eq_error_iff.mpr hw⟩)
    | @left words stack hl hn =>
      refine .inr ⟨stack, run_eq_ok_iff.mpr hl, ?_⟩
      split
      · exact absurd rfl hn
      · rfl

/-- The listing of a tree has the value of the tree. -/
lemma evaluate_listing (t : Tree) : evaluate (t.listing.map Word.token) = t.evaluate := by
  rw [Tree.map_token_listing, evaluate_postorder]

/-- A list of words has a value exactly if it lists a tree that has it. -/
lemma evaluate_eq_ok_iff_listing {words : List Word} {x : Float} :
    evaluate (words.map Word.token) = .ok x ↔ ∃ t : Tree, t.listing = words ∧ t.evaluate = .ok x := by
  constructor
  · intro h
    obtain ⟨ts, rfl, hs⟩ := run_eq_ok_iff.mp (evaluate_eq_ok_iff.mp h)
    match ts, hs with
    | [t], .cons ht .nil => exact ⟨t, rfl, ht⟩
  · rintro ⟨t, rfl, ht⟩
    rw [evaluate_listing, ht]

/-- Where operands are missing, nothing else is at fault. -/
lemma Fault.code_of_missing {stack : List Float} {c : Cause} :
    (∀ f : Function, Fault stack (.text f.name) c → stack = [] → c.code = "3006") ∧
      ∀ o : Operator, Fault stack (.text o.name) c → stack.length < 2 → c.code = "3006" := by
  constructor
  · rintro f h rfl
    rw [← step_eq_error_iff, Word.token_function] at h
    cases h
    rfl
  · intro o h hl
    rw [← step_eq_error_iff, Word.token_operator] at h
    rcases stack with _ | ⟨right, _ | ⟨left, below⟩⟩
    · cases h
      rfl
    · cases h
      rfl
    · simp at hl

lemma Fault.code_of_unknown {stack : List Float} {s : String} {c : Cause}
    (h : Fault stack (.text s) c) (ho : ∀ o : Operator, o.name ≠ s)
    (hf : ∀ f : Function, f.name ≠ s) : c.code = "3004" := by
  have hu : Fault stack (.text s) (.unknownOperator s) := .unknown ho hf
  rw [← step_eq_error_iff] at h hu
  rw [h] at hu
  cases hu
  rfl

/-- A list that is run to its end halts for the number of values. -/
lemma Halts.code_of_leaves {words : List Word} {c : Cause} (h : Halts words c)
    {stack : List Float} (hs : Leaves words stack) : c.code = "3011" := by
  cases h with
  | @word before w after mid c hb hw =>
    rw [← run_eq_ok_iff, List.map_append, List.map_cons, run_append, run_eq_ok_iff.mpr hb,
      Outcome.ok_bind, run_cons, step_eq_error_iff.mpr hw] at hs
    cases hs
  | left => rfl

/-- The values of lists of doubles and texts: the post-order listing of a tree has the value of the tree or
fails as its first subtree does, any other list fails for its first fault, and a list is the listing of one
tree at most. -/
theorem evaluate_words (words : List Word) :
    (∀ x, evaluate (words.map Word.token) = .ok x ↔
        ∃ t : Tree, t.listing = words ∧ t.evaluate = .ok x) ∧
      (∀ t u : Tree, t.listing = words → u.listing = words → t = u) ∧
      (∀ (t : Tree) (c : Cause), t.listing = words →
        (evaluate (words.map Word.token) = .error c ↔ t.nodes.findSome? Tree.failure? = some c)) ∧
      ((∀ t : Tree, t.listing ≠ words) → ∃ c, evaluate (words.map Word.token) = .error c) ∧
      (∀ c, (evaluate (words.map Word.token) = .error c ↔ Halts words c) ∧
        (Halts words c → ∀ stack, Leaves words stack → c.code = "3011")) ∧
      ∀ stack s c, Fault stack (.text s) c →
        ((∀ o : Operator, o.name ≠ s) → (∀ f : Function, f.name ≠ s) → c.code = "3004") ∧
          (∀ f : Function, f.name = s → stack = [] → c.code = "3006") ∧
          ∀ o : Operator, o.name = s → stack.length < 2 → c.code = "3006" := by
  refine ⟨fun x => evaluate_eq_ok_iff_listing, ?_, ?_, ?_, ?_, ?_⟩
  · rintro t u rfl hu
    have h : [t] = [u] := Tree.listings_inj hu.symm
    exact List.singleton_inj.mp h
  · rintro t c rfl
    rw [evaluate_listing, Tree.findSome?_nodes, Tree.failure?]
    cases t.evaluate <;> simp
  · intro h
    cases he : evaluate (words.map Word.token) with
    | error c => exact ⟨c, rfl⟩
    | ok x =>
      obtain ⟨t, ht, -⟩ := evaluate_eq_ok_iff_listing.mp he
      exact absurd ht (h t)
  · intro c
    exact ⟨evaluate_eq_error_iff, fun h stack => h.code_of_leaves⟩
  · intro stack s c h
    refine ⟨h.code_of_unknown, ?_, ?_⟩
    · rintro f rfl
      exact Fault.code_of_missing.1 f h
    · rintro o rfl
      exact Fault.code_of_missing.2 o h

end Postfix

end Reckoner
