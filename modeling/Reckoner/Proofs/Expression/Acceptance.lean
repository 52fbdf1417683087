import Mathlib
import Reckoner.Proofs.Expression.Composition
import Reckoner.Proofs.Expression.Descent
import Reckoner.Proofs.Expression.Meaning
import Reckoner.Proofs.Expression.Tally

/-!
# What is accepted

A text that is given a value need not be a sentence of the language. There are two ways out: a run of
digits with a second point is cut in two where a minus gets a group of its own, and a constant is replaced
at the end of a name whose other part is a function. Both are lexemes that the text is cut in two at
(`Lexeme.IsTwoWords`), and there are no others: a text with a value is a sentence exactly if it has no
such lexeme (`isSentence_iff_of_evaluate`).

The proof reads off the value what recursive descent asks for. That the checks let the text pass gives the
depth of its groups and the order of its operators, that its tokens are read gives its words, and that
they can be reordered gives a group behind every function. What no stage checks, that every operator has
its operands, follows from a count: as one value is left, no chunk is out of place (`faults`).
-/

namespace Reckoner

open Chunk (mark name number outline Parted Apart)

namespace Lexeme

/-- A lexeme that the text is cut in two at: a run of digits with a second point, or the name of a
function with that of a constant behind it. -/
def IsTwoWords : Lexeme → Prop
  | numeral s => 1 < s.count '.'
  | name s => ∃ (f : Function) (k : Constant), s = f.name.toList ++ k.name.toList
  | mark _ => False

/-- What is read as a number is a numeral. -/
lemma exists_of_readNumeral {s : List Char} {t : Token} (h : readNumeral s = .ok t) :
    ∃ n, Numeral.ofChars? s = some n := by
  rw [readNumeral] at h
  split at h
  · cases h
  · split at h
    · cases h
    · next n hn => exact ⟨n, hn⟩

/-- No name is made of the names of a function and a constant. -/
lemma name_append_ne (f : Function) (k : Constant) :
    (∀ j : Constant, f.name.toList ++ k.name.toList ≠ j.name.toList) ∧
      ∀ g : Function, f.name.toList ++ k.name.toList ≠ g.name.toList := by
  have hf : f.name.toList.head? ≠ some 'p' ∧ 1 < f.name.toList.length := by
    cases f <;> decide
  have hk : k.name.toList.getLast? = some 'e' ∨ k.name.toList.getLast? = some 'i' := by
    cases k <;> decide
  refine ⟨fun j h => ?_, fun g h => ?_⟩
  · have hj : j.name.toList.head? = some 'p' ∨ j.name.toList.length ≤ 1 := by
      cases j <;> decide
    have hn : f.name.toList ≠ [] := by
      rintro e
      rw [e] at hf
      exact absurd hf.2 (by decide)
    rw [← h, List.head?_append_of_ne_nil _ hn, List.length_append] at hj
    obtain hj | hj := hj
    · exact hf.1 hj
    · omega
  · have hg : g.name.toList.getLast? ≠ some 'e' ∧ g.name.toList.getLast? ≠ some 'i' := by
      cases g <;> decide
    rw [← h, List.getLast?_append_of_ne_nil _ k.name_ne_nil] at hg
    exact hk.elim hg.1 hg.2

/-- A word of the grammar is one word. -/
lemma IsWord.not_isTwoWords {a : Lexeme} (h : a.IsWord) : ¬a.IsTwoWords := by
  cases a with
  | numeral s =>
    obtain ⟨n, hn⟩ := h
    exact Nat.not_lt.mpr (Numeral.count_point_le hn)
  | name s =>
    rintro ⟨f, k, rfl⟩
    obtain ⟨j, hj⟩ | ⟨g, hg⟩ := h
    · exact (name_append_ne f k).1 j hj
    · exact (name_append_ne f k).2 g hg
  | mark c => exact id

end Lexeme

namespace Chunk

/-- A name stands before a group. -/
def Applied (j k : Chunk) : Prop :=
  j.isName → k = mark '('

lemma countP_of_reads {p : Chunk → Bool} {q : Token → Bool} (h : ∀ {k t}, Reads k t → p k = q t)
    {l : List Chunk} {tokens : List Token} (hl : List.Forall₂ Reads l tokens) :
    l.countP p = tokens.countP q := by
  induction hl with
  | nil => rfl
  | cons hk _ ih => rw [List.countP_cons, List.countP_cons, ih, h hk]

lemma Reads.isOperator {k : Chunk} {t : Token} (h : k.Reads t) : k.isOperator = t.isOperator := by
  obtain ⟨d, x, rfl, rfl⟩ | ⟨f, rfl, rfl⟩ | ⟨o, rfl, rfl⟩ | ⟨rfl, rfl⟩ | ⟨rfl, rfl⟩ := h.cases
  · rfl
  · rfl
  · cases o <;> rfl
  · rfl
  · rfl

/-- Names that are read as functions of groups stand before groups. -/
lemma applied_of_reads {j k : Chunk} {t u : Token} (hj : j.Reads t) (hk : k.Reads u)
    (h : (∃ f, t = .function f) → u = .leftParen) : Applied j k := by
  intro hn
  obtain ⟨d, x, rfl, rfl⟩ | ⟨f, rfl, rfl⟩ | ⟨o, rfl, rfl⟩ | ⟨rfl, rfl⟩ | ⟨rfl, rfl⟩ := hj.cases
  · cases hn
  · obtain rfl := h ⟨f, rfl⟩
    obtain ⟨_, _, -, ⟨⟩⟩ | ⟨_, -, ⟨⟩⟩ | ⟨_, -, ⟨⟩⟩ | ⟨rfl, -⟩ | ⟨-, ⟨⟩⟩ := hk.cases
    rfl
  · cases hn
  · cases hn
  · cases hn

end Chunk

namespace Expression

open Chunk (Applied)

/-- No countdown ends at a name that stands before a group. -/
lemma applied_of_closings {k : Chunk} {pending : List Nat} {r : List Chunk}
    (h : (k :: (closings 1 pending ++ r)).IsChain Applied) :
    (k :: r).IsChain Applied ∧ (1 ∈ pending → k.isName = false) := by
  have hr : r.IsChain Applied := (List.isChain_append.mp h.tail).2.1
  rw [closings] at h
  cases hn : pending.count 1 with
  | zero =>
    rw [hn] at h
    exact ⟨h, fun hm => absurd hm (List.count_eq_zero.mp hn)⟩
  | succ n =>
    rw [hn] at h
    have hk : k.isName = false := by
      by_contra hk
      cases (List.isChain_cons_cons.mp h).1 (Bool.not_eq_false _ ▸ hk)
    have ha (b : Chunk) : Applied k b := fun hn => by
      rw [hk] at hn
      cases hn
    exact ⟨List.isChain_cons.mpr ⟨fun b _ => ha b, hr⟩, fun _ => hk⟩

/-- The pass for unary minus writes nothing between a name and its group. -/
lemma applied_of_subtractFromZero {previous : Option Chunk} {pending : List Nat} {l : List Chunk}
    (h : (subtractFromZero previous pending l).IsChain Applied) : l.IsChain Applied := by
  induction l generalizing previous pending with
  | nil => exact .nil
  | cons k l ih =>
    rw [subtractFromZero_cons] at h
    have h := (applied_of_closings (List.isChain_append.mp h).2.1).1
    refine List.isChain_cons.mpr ⟨fun b hb hk => ?_, ih h.tail⟩
    obtain ⟨l, rfl⟩ := List.head?_eq_some_iff.mp hb
    have hv : ∃ j, some k = some j ∧ j ≠ mark '(' ∧ j.isOperator = false := by
      cases k <;> first | exact ⟨_, rfl, by simp, rfl⟩ | cases hk
    rw [subtractFromZero_cons_of_value (.inr hv)] at h
    exact (List.isChain_cons_cons.mp h).1 hk

/-- The signs of products are not written between a name and its group. -/
lemma applied_of_insertTimes {l : List Chunk} (h : (insertTimes l).IsChain Applied) :
    l.IsChain Applied := by
  fun_induction insertTimes l with
  | case1 j k l hj ih =>
    have hl := ih (List.isChain_cons_cons.mp h).2.tail
    refine List.isChain_cons_cons.mpr ⟨fun hn => ?_, hl⟩
    have hv := (Chunk.of_isJuxtaposition hj).1
    cases j with
    | name s => cases hv
    | number d => cases hn
    | mark c => cases hn
  | case2 j k l _ ih =>
    obtain ⟨r, e⟩ := Chunk.insertTimes_cons k l
    rw [e] at h ih
    exact List.isChain_cons_cons.mpr ⟨(List.isChain_cons_cons.mp h).1, ih h.tail⟩
  | case3 l => exact h

/-- An operand starts with a word that can begin one. -/
lemma isOpening_of_startsOperand {l : List Lexeme} (hw : ∀ a ∈ l, a.IsWord)
    (h : StartsOperand (outline (l.map Lexeme.toChunk))) : l.head?.any (·.isOpening) := by
  cases l with
  | nil => simp [StartsOperand] at h
  | cons a l =>
    obtain ⟨c, ⟨⟩, hc⟩ := h
    cases a with
    | numeral s => rfl
    | name s => rfl
    | mark c =>
      obtain rfl | rfl | ⟨o, rfl⟩ := (List.forall_mem_cons.mp hw).1
      · rfl
      · exact absurd hc (by decide)
      · exact absurd hc (by cases o <;> decide)

/-- Where no chunk is out of place, the words of a text are in order. -/
theorem orderly_of_faults {d : Nat} {p : Option Lexeme} {previous : Option Chunk} {l : List Lexeme}
    (hw : ∀ a ∈ l, a.IsWord) (hb : (p.toList ++ l).IsChain Lexeme.Breaks)
    (hd : depthAfter d (outline (l.map Lexeme.toChunk)) = some 0)
    (ht : Tidy (p.any (·.isOperator)) (outline (l.map Lexeme.toChunk)))
    (hg : (replacement l).IsChain Applied)
    (hp : previous.any (·.isValue) = p.any (·.isValue))
    (hf : faults previous (replacement l) = 0) : Orderly d p l := by
  induction l generalizing d p previous with
  | nil =>
    cases hd
    refine .nil ?_
    rw [← hp]
    simpa [replacement, faults] using hf
  | cons a l ih =>
    obtain ⟨ha, hl⟩ := List.forall_mem_cons.mp hw
    have hb' : ((some a).toList ++ l).IsChain Lexeme.Breaks := (List.isChain_append.mp hb).2.1
    cases a with
    | numeral s =>
      obtain ⟨n, hn⟩ := ha
      have hpn (t : List Char) : p ≠ some (.numeral t) := by
        rintro rfl
        exact (List.isChain_cons_cons.mp hb).1.1 ⟨rfl, rfl⟩
      exact .number hn hpn (ih hl hb' hd ht.2 hg.tail rfl (Nat.add_eq_zero_iff.mp hf).2)
    | name s =>
      obtain ⟨k, rfl⟩ | ⟨f, rfl⟩ := ha
      · -- A constant is a group by now, so the chunk before the rest is its parenthesis.
        rw [replacement_constant_cons] at hg hf
        have hf : faults (some (mark ')')) (replacement l) = 0 :=
          (Nat.add_eq_zero_iff.mp (Nat.add_eq_zero_iff.mp (Nat.add_eq_zero_iff.mp hf).2).2).2
        have hp : (some (mark ')')).any (·.isValue) =
            (some (Lexeme.name k.name.toList)).any (·.isValue) := (Lexeme.isValue_constant k).symm
        exact .constant (ih hl hb' hd ht.2 hg.tail.tail.tail hp hf)
      · rw [replacement_function_cons] at hg hf
        have hf := (Nat.add_eq_zero_iff.mp hf).2
        have hp : (some (name f.name.toList)).any (·.isValue) =
            (some (Lexeme.name f.name.toList)).any (·.isValue) := (Lexeme.isValue_function f).symm
        have ih := ih hl hb' hd ht.2 hg.tail hp hf
        -- What follows can be no name, as names do not touch, and nothing but a group.
        cases l with
        | nil => cases hf
        | cons b l =>
          have hb := List.isChain_cons_cons.mp hb'
          cases b with
          | numeral s => cases (List.isChain_cons_cons.mp hg).1 rfl
          | name s => exact absurd ⟨rfl, rfl⟩ hb.1.2
          | mark c =>
            cases (List.isChain_cons_cons.mp hg).1 rfl
            exact .function ih.of_opening
    | mark c =>
      have hr : replacement (.mark c :: l) = mark c :: replacement l := rfl
      rw [hr] at hg hf
      obtain ⟨hm, hf⟩ := Nat.add_eq_zero_iff.mp hf
      obtain rfl | rfl | ⟨o, rfl⟩ := ha
      · exact .opening (ih hl hb' hd ht.2 hg.tail rfl hf)
      · have hv : p.any (·.isValue) := by
          rw [← hp]
          simpa [isMisplaced] using hm
        cases d with
        | zero => cases hd
        | succ d => exact .closing hv (ih hl hb' hd ht.2 hg.tail rfl hf)
      · have hd : depthAfter d (outline (l.map Lexeme.toChunk)) = some 0 := by
          rwa [← depthAfter_operator o]
        have ih := ih hl hb' hd ht.2 hg.tail (by cases o <;> rfl) hf
        cases hv : p.any (·.isValue) with
        | true => exact .operator hv ih
        | false =>
          -- Without a value before it an operator is a fault unless it is a minus.
          rw [isMisplaced, hp, hv] at hm
          cases o with
          | subtract =>
            exact .minus hv (fun h => isOpening_of_startsOperand hl (ht.1 h rfl).2) ih
          | add => cases hm
          | multiply => cases hm
          | divide => cases hm
          | power => cases hm

/-- No numerals touch where constants are replaced, unless some did before. -/
lemma apart_flatMap_replaceAll {l : List Chunk} (h : Apart l) :
    Apart (l.flatMap Chunk.replaceAll) := by
  have other {k : Chunk} {l : List Chunk} (hk : k.isNumber = false) (h : Apart l) :
      Apart (k :: l) :=
    List.isChain_cons.mpr ⟨fun j _ hn => by simp [hk] at hn, h⟩
  induction l with
  | nil => exact .nil
  | cons k l ih =>
    have ih := ih h.tail
    rw [List.flatMap_cons]
    cases k with
    | number d =>
      refine List.isChain_cons.mpr ⟨fun j hj hn => ?_, ih⟩
      cases l with
      | nil => cases hj
      | cons i l =>
        cases i with
        | number e => exact (List.isChain_cons_cons.mp h).1 ⟨rfl, rfl⟩
        | name s =>
          obtain ⟨y, r, e, hy⟩ := exists_replaceAll_name s
          have hy : y.isNumber = false := by
            obtain rfl | hy := hy
            · rfl
            · cases y with
              | name s => rfl
              | number d => cases hy
              | mark c => cases hy
          rw [List.flatMap_cons, e] at hj
          cases hj
          rw [hy] at hn
          cases hn.2
        | mark c =>
          cases hj
          cases hn.2
    | name s =>
      obtain e | ⟨k, e, -⟩ | ⟨r, k, e, -⟩ := replaceAll_name_cases s
      · rw [e]
        exact other rfl ih
      · rw [e]
        refine other rfl (List.isChain_cons_cons.mpr ⟨fun hn => ?_, other rfl ih⟩)
        cases hn.2
      · rw [e]
        refine other rfl (other rfl (List.isChain_cons_cons.mpr ⟨fun hn => ?_, other rfl ih⟩))
        cases hn.2
    | mark c => exact other rfl ih

/-- The chunks of a text with its constants replaced touch in no numerals, where no run of digits has a
second point. -/
lemma apart_replaced {s : List Char} (h : ∀ d, .numeral d ∈ Lexeme.split s → d.count '.' ≤ 1) :
    Apart (Chunk.replaced s) := by
  apply apart_flatMap_replaceAll
  rw [Chunk.apart_iff (Chunk.canonical_split s), Chunk.join_split]
  exact h

/-- A text that can be cut into tokens has chunks that can be read. -/
lemma reads_of_tokenize {l : List Chunk} {tokens : List Token} (hl : Chunk.Canonical l)
    (h : Token.tokenize (Chunk.join l) = .ok tokens) : List.Forall₂ Chunk.Reads l tokens := by
  rw [Token.tokenize, Chunk.split_join_lexemes hl, Outcome.mapM_eq_ok] at h
  have ha : Apart l := Chunk.apart_of_count_le hl fun s hs => by
    obtain ⟨t, ht⟩ := Outcome.exists_of_forall₂ h hs
    obtain ⟨n, hn⟩ := Lexeme.exists_of_readNumeral ht
    exact Numeral.count_point_le hn
  rwa [ha.lexemes, List.forall₂_map_left_iff] at h

/-- The pass for unary minus keeps every chunk. -/
lemma mem_subtractFromZero_of_mem {k : Chunk} {previous : Option Chunk} {pending : List Nat}
    {l : List Chunk} (h : k ∈ l) : k ∈ subtractFromZero previous pending l := by
  induction l generalizing previous pending with
  | nil => cases h
  | cons j l ih =>
    rw [subtractFromZero_cons]
    rcases List.mem_cons.mp h with rfl | h
    · exact List.mem_append_right _ (List.mem_cons_self ..)
    · exact List.mem_append_right _ (List.mem_cons_of_mem _ (List.mem_append_right _ (ih h)))

lemma mem_insertTimes_of_mem {k : Chunk} {l : List Chunk} (h : k ∈ l) : k ∈ insertTimes l := by
  fun_induction insertTimes l with
  | case1 i j l _ ih =>
    rcases List.mem_cons.mp h with rfl | h
    · exact List.mem_cons_self ..
    · exact List.mem_cons_of_mem _ (List.mem_cons_of_mem _ (ih h))
  | case2 i j l _ ih =>
    rcases List.mem_cons.mp h with rfl | h
    · exact List.mem_cons_self ..
    · exact List.mem_cons_of_mem _ (ih h)
  | case3 l => exact h

/-- What is left of a text after constants are replaced can be read, if the text has a value. -/
lemma exists_reads_of_mem {s : List Char} {tokens : List Token}
    (h : List.Forall₂ Chunk.Reads (subtractFromZero none [] (Chunk.signed s)) tokens) {k : Chunk}
    (hk : k ∈ Chunk.replaced s) : ∃ t, k.Reads t :=
  Outcome.exists_of_forall₂ h (mem_subtractFromZero_of_mem (mem_insertTimes_of_mem hk))

/-- Lexemes that can be read after constants are replaced are words, if they are one word each. -/
lemma isWord_of_reads {a : Lexeme} (h : ∀ k ∈ a.toChunk.replaceAll, ∃ t, k.Reads t)
    (ha : ¬a.IsTwoWords) : a.IsWord := by
  cases a with
  | numeral s =>
    obtain ⟨t, ht⟩ := h (number s) (List.mem_cons_self ..)
    exact Lexeme.exists_of_readNumeral ht
  | name s =>
    have function {s : List Char} (h : ∃ t, (name s).Reads t) :
        ∃ f : Function, s = f.name.toList := by
      obtain ⟨t, ht⟩ := h
      obtain ⟨_, _, ⟨⟩, -⟩ | ⟨f, hf, -⟩ | ⟨_, ⟨⟩, -⟩ | ⟨⟨⟩, -⟩ | ⟨⟨⟩, -⟩ := ht.cases
      exact ⟨f, Chunk.name.inj hf⟩
    obtain e | ⟨k, -, hs⟩ | ⟨r, k, e, rfl⟩ := replaceAll_name_cases s
    · exact .inr (function (h _ (by rw [Lexeme.toChunk, e]; exact List.mem_cons_self ..)))
    · exact .inl ⟨k, hs⟩
    · obtain ⟨f, rfl⟩ := function (h _ (by rw [Lexeme.toChunk, e]; exact List.mem_cons_self ..))
      exact absurd ⟨f, k, rfl⟩ ha
  | mark c =>
    obtain ⟨t, ht⟩ := h (mark c) (List.mem_cons_self ..)
    obtain ⟨_, _, ⟨⟩, -⟩ | ⟨_, ⟨⟩, -⟩ | ⟨o, ho, -⟩ | ⟨ho, -⟩ | ⟨ho, -⟩ := ht.cases
    · exact .inr (.inr ⟨o, Chunk.mark.inj ho⟩)
    · exact .inl (Chunk.mark.inj ho)
    · exact .inr (.inl (Chunk.mark.inj ho))

lemma tidy_of_passes {raw : List Char} (h : Passes (spell raw)) : Tidy false (expand raw) := by
  rw [tidy_false_iff, ← hasOperatorRun_spell, hasOperatorRun_eq, h.calm]
  exact Bool.false_ne_true

/-- No character of a text that passes the checks is foreign. -/
lemma isAllowed_of_passes {raw : List Char} (h : Passes (spell raw)) :
    ∀ k ∈ Chunk.signed (expand raw), isAllowed k.symbol := by
  intro k hk
  by_contra hn
  rw [Bool.not_eq_true] at hn
  have hm : k.symbol ∈ expand raw :=
    ((Chunk.alike_signed _).foreign _ hn).mp (List.mem_map_of_mem hk)
  have hs := h.allowed _ ((mem_spell_iff raw (isAllowed_eq_false_iff.mp hn)).mpr hm)
  rw [hn] at hs
  cases hs

/-- A text with a value that is made of words is a sentence. -/
theorem isSentence_of_computes {raw : List Char} {x : Float} (h : Computes (spell raw) x)
    (hn : ∀ a ∈ Lexeme.split (expand raw), ¬a.IsTwoWords) : IsSentence (expand raw) := by
  obtain ⟨hp, tokens, l, ht, hl, hx⟩ := h
  have hc : Chunk.Canonical (Chunk.signed (expand raw)) := Chunk.canonical_signed _
  rw [spell, Chunk.spellChunks_eq] at ht
  have hr := reads_of_tokenize (canonical_subtractFromZero hc) ht
  have hd (d : List Char) (hm : .numeral d ∈ Lexeme.split (expand raw)) : d.count '.' ≤ 1 :=
    Nat.not_lt.mp (hn (.numeral d) hm)
  have hs := signed_eq_signs hd
  have hw : ∀ a ∈ Lexeme.split (expand raw), a.IsWord := by
    refine fun a ha => isWord_of_reads (fun k hk => exists_reads_of_mem hr ?_) (hn a ha)
    rw [Chunk.replaced, ← Chunk.map_toChunk_split hd, List.flatMap_map]
    exact List.mem_flatMap.mpr ⟨a, ha, hk⟩
  have hb := Lexeme.isChain_split (expand raw)
  -- One value is left, so no chunk is out of place before the pass for unary minus.
  have hf : faults none (replacement (Lexeme.split (expand raw))) = 0 := by
    have hcount := Postfix.countP_of_run hl hx
    rw [← Chunk.countP_of_reads Chunk.Reads.isNumber hr,
      ← Chunk.countP_of_reads Chunk.Reads.isOperator hr] at hcount
    have ht : Tidy false (outline (Chunk.signed (expand raw))) :=
      ((Chunk.alike_signed _).tidy false).mpr (tidy_of_passes hp)
    have hi : (Chunk.signed (expand raw)).IsChain Parted :=
      Chunk.isChain_insertTimes (apart_replaced hd)
    have := @countP_subtractFromZero none [] _ hc.proper (isAllowed_of_passes hp) ht hi
    rw [Option.any_none, Bool.toNat_false, hcount] at this
    rw [← faults_insertTimes, ← signs, ← hs]
    omega
  have hg : (replacement (Lexeme.split (expand raw))).IsChain Applied := by
    have hi := Chunk.isChain_of_reads Chunk.applied_of_reads hr (Postfix.isChain_of_reorder hl)
    have hi := applied_of_subtractFromZero hi
    rw [hs] at hi
    exact applied_of_insertTimes hi
  have ha : Alike (expand raw) (outline ((Lexeme.split (expand raw)).map Lexeme.toChunk)) := by
    have := Chunk.alike_outline (Chunk.canonical_split (expand raw)).proper
    rwa [Chunk.join_split, ← Chunk.map_toChunk_split hd] at this
  refine Orderly.exists_derives (orderly_of_faults hw hb ?_ ?_ hg rfl hf)
  · rw [← ha.depth, ← depthAfter_spell]
    exact hp.closed 0
  · exact (ha.tidy false).mp (tidy_of_passes hp)

/-- A text with a value is a sentence exactly if each of its lexemes is one word. -/
theorem isSentence_iff_of_evaluate {text : String} {x : Float} (h : evaluate text = .ok x) :
    IsSentence (expand text.toList) ↔
      ∀ a ∈ Lexeme.split (expand text.toList), ¬a.IsTwoWords := by
  constructor
  · rintro ⟨t, ht⟩ a ha
    exact (ht.isWord a ha).not_isTwoWords
  · exact isSentence_of_computes (computes_of_evaluate h).1

/-- A text with a product whose sign is left out, which is a sentence. -/
theorem isSentence_iff_of_evaluate_product :
    evaluate "2(3+1)" = .ok 8 ∧ IsSentence (expand "2(3+1)".toList) := by
  have h : evaluate "2(3+1)" = .ok 8 :=
    @evaluate_of_stages _ "2*(3+1)".toList
      [.numeral ['2'], .mark '*', .mark '(', .numeral ['3'], .mark '+', .numeral ['1'], .mark ')'] _
      (by cbv) (by cbv) (by decide +kernel)
  have hs : Lexeme.split (expand "2(3+1)".toList) =
      [.numeral ['2'], .mark '(', .numeral ['3'], .mark '+', .numeral ['1'], .mark ')'] := by cbv
  refine ⟨h, (isSentence_iff_of_evaluate h).mpr ?_⟩
  rw [hs]
  simp [Lexeme.IsTwoWords]

/-- A text with a value that is no sentence: it has a numeral with two points and an operator without an
operand. -/
theorem evaluate_not_isSentence :
    evaluate "2*-1.5.5+" = .ok 1.25 ∧ ¬IsSentence (expand "2*-1.5.5+".toList) := by
  refine ⟨evaluate_cutNumeral, ?_⟩
  rintro ⟨t, ht⟩
  have hs : Lexeme.split (expand "2*-1.5.5+".toList) =
      [.numeral ['2'], .mark '*', .mark '-', .numeral ['1', '.', '5', '.', '5'], .mark '+'] := by cbv
  have hw := (ht.isWord (.numeral ['1', '.', '5', '.', '5']) (by rw [hs]; simp)).not_isTwoWords
  exact hw (by decide : 1 < ['1', '.', '5', '.', '5'].count '.')

end Expression

end Reckoner
