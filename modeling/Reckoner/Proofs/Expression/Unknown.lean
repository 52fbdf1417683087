import Mathlib
import Reckoner.Proofs.Expression.Identifier

/-!
# Unknown names

A list of chunks reaches a name (`ReachesName`) if everything before the name can be read as tokens. The stages of
spelling out keep that: a constant becomes a group that can be read, and so can the signs, zeros and parentheses
that are written. So the first name that is left of an identifier and is no function is what the text is refused
for (`evaluate_of_unknown`).

An identifier that names neither a constant nor a function is not always left as it is. `constants_in_identifiers`
says in which texts it is: those in which no identifier hides a constant behind a digit.
-/

namespace Reckoner

open Chunk (mark name number)

/-- A lexeme that can be read once constants are replaced. -/
def Lexeme.IsReadable : Lexeme → Prop
  | name s => ∀ r ∈ remains s, ∃ f : Function, f.name.toList = r
  | a => ∃ t, Writes a t

/-- A list that comes to a name behind chunks that can be read, no two of them numerals side by side. -/
inductive ReachesName (r : List Char) : Option Chunk → List Chunk → Prop where
  | here {p l} :
    ReachesName r p (name r :: l)
  | next {p k t l} :
    k.Reads t →
    (p.any (·.isNumber) → k.isNumber = false) →
    ReachesName r (some k) l →
    ReachesName r p (k :: l)

namespace ReachesName

open Expression (insertTimes subtractFromZero isJuxtaposition IsLeading opening closings groupedOperand? advance)
open Lexeme (remains)

variable {r : List Char} {p q : Option Chunk} {l : List Chunk}

/-- Behind what is no numeral anything may come. -/
lemma behind (h : ReachesName r p l) (hq : q.any (·.isNumber) = false) : ReachesName r q l := by
  cases h with
  | here => exact .here
  | next hk _ hl => exact .next hk (fun h => by rw [hq] at h; cases h) hl

lemma ne_nil (h : ReachesName r p l) : l ≠ [] := by
  cases h <;> exact List.cons_ne_nil _ _

lemma valueGroup_append (k : Constant) (h : ReachesName r (some (mark ')')) l) :
    ReachesName r p (Chunk.valueGroup k ++ l) := by
  have hk : (number (k.numeral.whole ++ '.' :: k.numeral.fraction)).Reads (.number k.value) :=
    Expression.read_constant k
  exact .next Explicit.reads_open (fun _ => rfl) (.next hk nofun (.next Explicit.reads_close (fun _ => rfl) h))

/-- What is left of an identifier comes first among what takes its place. -/
lemma here_replaceAll {s : List Char} (hr : r ∈ remains s) : ReachesName r p ((name s).replaceAll ++ l) := by
  obtain ⟨e, hs⟩ | ⟨k, e, hs⟩ | ⟨v, k, e, hs⟩ := Chunk.replaceAll_cases s
  · rw [hs, List.mem_singleton] at hr
    rw [e, hr]
    exact .here
  · rw [hs] at hr
    cases hr
  · rw [hs, List.mem_singleton] at hr
    rw [e, hr]
    exact .here

/-- Functions and the values of constants are read on the way to a name. -/
lemma replaceAll_append {s : List Char} (hs : Lexeme.IsReadable (.name s))
    (h : ∀ {q : Option Chunk}, q.any (·.isNumber) = false → ReachesName r q l) :
    ReachesName r p ((name s).replaceAll ++ l) := by
  obtain ⟨e, hw⟩ | ⟨k, e, -⟩ | ⟨v, k, e, hw⟩ := Chunk.replaceAll_cases s
  · obtain ⟨f, rfl⟩ := hs s (by rw [hw]; exact List.mem_cons_self)
    rw [e]
    exact .next (Explicit.reads_function f) (fun _ => rfl) (h rfl)
  · rw [e]
    exact valueGroup_append k (h rfl)
  · obtain ⟨f, rfl⟩ := hs v (by rw [hw]; exact List.mem_cons_self)
    rw [e]
    exact .next (Explicit.reads_function f) (fun _ => rfl) (valueGroup_append k (h rfl))

/-- A numeral that can be read touches no other one. -/
lemma isNumber_head? {d : List Char} {a : Lexeme} (hl : Chunk.Canonical (number d :: l))
    (ha : (Chunk.lexemes (number d :: l)).head? = some a) (hr : a.IsReadable) :
    ∀ k ∈ l.head?, k.isNumber = false := by
  intro k hk
  cases k with
  | name s => rfl
  | mark c => rfl
  | number e =>
    obtain ⟨l, rfl⟩ := List.head?_eq_some_iff.mp hk
    obtain ⟨f, m, hm⟩ := Chunk.lexemes_number e l
    have hglue : Chunk.lexemes (number d :: number e :: l) = .numeral (d ++ (e ++ f)) :: m := by
      rw [Chunk.lexemes, hm]
      rfl
    rw [hglue] at ha
    cases ha
    obtain ⟨t, ht⟩ := hr
    cases ht with
    | number hs =>
      -- Numerals that touch have a point each.
      obtain ⟨hd, he⟩ := Chunk.mem_point_of_touch hl
      have hc := Numeral.count_point_le (Numeral.ofChars?_eq_some_iff.mpr hs)
      have hd := List.count_pos_iff.mpr hd
      have he := List.count_pos_iff.mpr he
      simp only [List.count_append] at hc
      omega

/-- A text whose lexemes before a name can be read reaches what is left of the name. -/
lemma of_lexemes {before after : List Lexeme} {w : List Char} (hl : Chunk.Canonical l)
    (hp : p.any (·.isNumber) → ∀ k ∈ l.head?, k.isNumber = false)
    (h : Chunk.lexemes l = before ++ .name w :: after) (hb : ∀ a ∈ before, a.IsReadable)
    (hr : r ∈ remains w) : ReachesName r p (l.flatMap Chunk.replaceAll) := by
  induction l generalizing before p with
  | nil => simp [Chunk.lexemes] at h
  | cons k l ih =>
    have behind {q : Option Chunk} (hq : q.any (·.isNumber) = false) {before : List Lexeme}
        (h : Chunk.lexemes l = before ++ .name w :: after) (hb : ∀ a ∈ before, a.IsReadable) :
        ReachesName r q (l.flatMap Chunk.replaceAll) :=
      ih hl.2.2 (fun h => by rw [hq] at h; cases h) h hb
    rw [List.flatMap_cons]
    cases k with
    | name s =>
      rw [Chunk.lexemes_name_cons] at h
      cases before with
      | nil =>
        obtain rfl : s = w := Lexeme.name.inj (List.cons.inj h).1
        exact here_replaceAll hr
      | cons a before =>
        obtain ⟨rfl, hl'⟩ := List.cons.inj h
        obtain ⟨ha, hb'⟩ := List.forall_mem_cons.mp hb
        exact replaceAll_append ha fun hq => behind hq hl' hb'
    | mark c =>
      rw [Chunk.lexemes_mark_cons] at h
      cases before with
      | nil => cases h
      | cons a before =>
        obtain ⟨rfl, hl'⟩ := List.cons.inj h
        obtain ⟨⟨t, ha⟩, hb'⟩ := List.forall_mem_cons.mp hb
        exact .next (Lexeme.read_eq_ok_iff.mpr ha) (fun _ => rfl) (behind rfl hl' hb')
    | number d =>
      have hn : ∀ k ∈ l.head?, k.isNumber = false := by
        cases before with
        | nil =>
          obtain ⟨e, m, hm⟩ := Chunk.lexemes_number d l
          rw [hm] at h
          cases h
        | cons a before => exact isNumber_head? hl (by rw [h]; rfl) (hb a List.mem_cons_self)
      rw [Chunk.lexemes_number_cons hn] at h
      cases before with
      | nil => cases h
      | cons a before =>
        obtain ⟨rfl, hl'⟩ := List.cons.inj h
        obtain ⟨⟨t, ha⟩, hb'⟩ := List.forall_mem_cons.mp hb
        exact .next (Lexeme.read_eq_ok_iff.mpr ha) (fun hpn => hp hpn _ rfl) (ih hl.2.2 (fun _ => hn) hl' hb')

/-- The signs of products are written between chunks that can be read. -/
lemma insertTimes (h : ReachesName r p l) : ReachesName r p (Expression.insertTimes l) := by
  induction h with
  | @here p l =>
    obtain ⟨m, e⟩ := Chunk.insertTimes_cons (name r) l
    rw [e]
    exact .here
  | @next p k t l hk hp h ih =>
    obtain ⟨j, l, rfl⟩ := List.exists_cons_of_ne_nil h.ne_nil
    rw [Expression.insertTimes]
    split
    · exact .next hk hp (.next (Explicit.reads_operator .multiply) (fun _ => rfl) (ih.behind rfl))
    · exact .next hk hp ih

lemma closings (n : Nat) (pending : List Nat) (h : ReachesName r p l) :
    ReachesName r p (Expression.closings n pending ++ l) := by
  rw [Expression.closings]
  induction pending.count n generalizing p with
  | zero => exact h
  | succ m ih => exact .next Explicit.reads_close (fun _ => rfl) (ih (h.behind rfl))

/-- The zeros and parentheses of subtractions can be read. -/
lemma subtractFromZero (h : ReachesName r p l) (pending : List Nat) :
    ReachesName r p (Expression.subtractFromZero p pending l) := by
  induction h generalizing pending with
  | @here p l =>
    rw [Expression.subtractFromZero_cons_of_value (.inl (by simp))]
    exact .here
  | @next p k t l hk hp _ ih =>
    rw [Expression.subtractFromZero_cons]
    generalize (groupedOperand? p k l).toList ++ advance 1 pending = later
    have hrest := (ih later).closings 1 pending
    have hzero {q : Option Chunk} (hq : q.any (·.isNumber) = false) (hm : k = mark '-') :
        ReachesName r q (number ['0'] :: k :: (Expression.closings 1 pending ++
          Expression.subtractFromZero (some k) later l)) := by
      refine .next Expression.read_zero (fun h => ?_) (.next hk (fun _ => ?_) hrest)
      · rw [hq] at h
        cases h
      · rw [hm]
        rfl
    unfold opening
    split
    · next hi =>
      obtain ⟨hm, rfl | rfl⟩ := hi
      · exact hzero rfl hm
      · exact hzero rfl hm
    · split
      · next hs =>
        obtain ⟨n, hs⟩ := Option.isSome_iff_exists.mp hs
        exact .next Explicit.reads_open (fun _ => rfl) (hzero rfl (Expression.groupedOperand?_eq_some hs).1)
      · exact .next hk hp hrest

/-- The lexemes of a list that reaches a name. -/
lemma exists_lexemes (h : ReachesName r p l) :
    ∃ before after, Chunk.lexemes l = before ++ .name r :: after ∧ ∀ b ∈ before, ∃ t, Lexeme.Writes b t := by
  induction h with
  | @here p l => exact ⟨[], _, rfl, by simp⟩
  | @next p k t l hk hp h ih =>
    obtain ⟨before, after, e, hb⟩ := ih
    have hw : ∃ t, Lexeme.Writes k.toLexeme t := ⟨t, Lexeme.read_eq_ok_iff.mp hk⟩
    refine ⟨k.toLexeme :: before, after, ?_, List.forall_mem_cons.mpr ⟨hw, hb⟩⟩
    rw [List.cons_append, ← e]
    cases k with
    | name s => rfl
    | mark c => rfl
    | number d =>
      refine Chunk.lexemes_number_cons fun j hj => ?_
      cases h with
      | here =>
        cases hj
        rfl
      | next _ hn _ =>
        cases hj
        exact hn rfl

end ReachesName

namespace Expression

open Constant (ofIdentifier?)
open Lexeme (identifiers remains substituted valued)

/-- A text that passes the checks is refused for the first name that is left of an identifier and is no function,
if all before it can be read. -/
theorem evaluate_of_unknown {text : String} {before after : List Lexeme} {w r : List Char}
    (hs : Lexeme.split (expand text.toList) = before ++ .name w :: after)
    (hv : verdict (expand text.toList) = .ok ()) (hb : ∀ a ∈ before, a.IsReadable) (hr : r ∈ remains w)
    (hf : ∀ f : Function, f.name.toList ≠ r) :
    evaluate text = .error ⟨.unknownName (String.ofList r), some text⟩ := by
  have hreach : ReachesName r none (spellChunks text.toList) := by
    rw [Chunk.spellChunks_eq]
    have hl := (Chunk.lexemes_split (expand text.toList)).trans hs
    have h₀ := ReachesName.of_lexemes (Chunk.canonical_split _) (p := none) (fun h => by cases h) hl hb hr
    exact h₀.insertTimes.subtractFromZero []
  obtain ⟨before', after', e, hb'⟩ := hreach.exists_lexemes
  have ht : Token.tokenize (spell text.toList) = .error (.unknownName (String.ofList r)) := by
    refine Token.tokenize_eq_error_iff.mpr ⟨before', .name r, after', ?_, hb', .unknown hf⟩
    rw [spell, Chunk.split_join_lexemes (canonical_spellChunks _), e]
  have hc : check (spell text.toList) = .ok () := by
    have h := check_spell text.toList
    rw [hv, Outcome.mapError_eq_ok] at h
    exact h
  rw [evaluate, evaluateSpelled, hc, Outcome.ok_bind, ht]
  rfl

/-- The identifiers that name no constant are left as they are if and only if none hides a constant. -/
lemma flatMap_remains_iff {l : List (List Char)} (h : ∀ w ∈ l, ∀ c ∈ w, c.isAlphanum) :
    l.flatMap remains = l.filter (fun w => (ofIdentifier? w).isNone) ↔ ∀ w ∈ l, ¬HidesConstant w := by
  induction l with
  | nil => simp
  | cons w l ih =>
    obtain ⟨hw, hl⟩ := List.forall_mem_cons.mp h
    rw [List.flatMap_cons, List.forall_mem_cons, ← ih hl]
    obtain ⟨k, hk, -, -, hr, hh⟩ | ⟨v, d, k, rfl, hd, hk, -, -, hr⟩ | ⟨hk, -, -, hr, hh⟩ :=
      Lexeme.cases_of_isAlphanum hw
    · rw [hr, List.filter_cons_of_neg (by simp [hk]), List.nil_append, and_iff_right hh]
    · rw [hr, List.filter_cons_of_pos (by simp [hk]), List.singleton_append, List.cons.injEq]
      refine iff_of_false (fun e => ?_) fun e => e.1 ⟨v, d, k, rfl, hd⟩
      have := congrArg List.length e.1
      simp [k.name_ne_nil] at this
    · rw [hr, List.filter_cons_of_pos (by simp [hk]), List.singleton_append, List.cons.injEq,
        and_iff_right rfl, and_iff_right hh]

end Expression

end Reckoner
