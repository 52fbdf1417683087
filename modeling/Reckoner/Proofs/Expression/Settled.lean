import Mathlib
import Reckoner.Proofs.Expression.Acceptance
import Reckoner.Proofs.Expression.Safety

/-!
# Spelled-out texts

What a text with a value spells out is spelled out: spelling it out once more changes nothing. Whether a pass
has anything to do depends on neighbours only. A list of chunks is `Settled` if no product in it lacks its sign
and no minus its zero; such a list is what its own text spells out (`spellChunks_join`).

The last pass leads to settled lists (`settled_subtractFromZero`). The parentheses that it closes are what has
to be looked at: each stands behind a value, and what followed the value was no operand, so none follows the
parenthesis.

Two numerals are side by side where a run of digits has a second point. There the pass may write a parenthesis
between them, and a sign is missing behind it, so there must be no such run (`HasSecondPoint`).
-/

namespace Reckoner

open Chunk (mark name number outline Parted Applied)

namespace Chunk

/-- Chunks that nothing has to be written between: no product without its sign, and no minus that leads a
group. -/
def Settled (j k : Chunk) : Prop :=
  Parted j k ∧ (k = mark '-' → j ≠ mark '(')

lemma settled_of_isValue {j k : Chunk} (hj : j.isValue = false) (hk : k ≠ mark '-') : Settled j k :=
  ⟨fun h => Bool.false_ne_true (hj ▸ h.1), fun e => absurd e hk⟩

lemma settled_close (j : Chunk) : Settled j (mark ')') :=
  ⟨fun h => Bool.false_ne_true h.2, nofun⟩

/-- A closing parenthesis stands where a value has stood. -/
lemma Settled.behind_close {j k : Chunk} (h : Settled j k) (hj : j.isValue) :
    Settled (mark ')') k :=
  ⟨fun hk => h.1 ⟨hj, hk.2⟩, nofun⟩

/-- A chunk that is read as a token stands for itself. -/
lemma Reads.replaceAll {k : Chunk} {t : Token} (h : k.Reads t) : k.replaceAll = [k] := by
  obtain ⟨d, x, rfl, rfl⟩ | ⟨f, rfl, rfl⟩ | ⟨o, rfl, rfl⟩ | ⟨rfl, rfl⟩ | ⟨rfl, rfl⟩ := h.cases
  · rfl
  · exact replaceAll_functionName f
  · rfl
  · rfl
  · rfl

/-- No constant is left in a text that can be read. -/
lemma replaced_join {l : List Chunk} (hl : Canonical l) (h : ∀ k ∈ l, ∃ t, k.Reads t) :
    replaced (join l) = l := by
  rw [replaced, split_join hl]
  clear hl
  induction l with
  | nil => rfl
  | cons k l ih =>
    obtain ⟨⟨t, ht⟩, hl⟩ := List.forall_mem_cons.mp h
    rw [List.flatMap_cons, ht.replaceAll, ih hl]
    rfl

end Chunk

namespace Expression

open Chunk (Settled)

/-- The sign of no product is left out in a settled list. -/
lemma insertTimes_eq_self {l : List Chunk} (h : l.IsChain Settled) : insertTimes l = l := by
  fun_induction insertTimes l with
  | case1 j k l hj =>
    exact absurd (Chunk.of_isJuxtaposition hj) (List.isChain_cons_cons.mp h).1.1
  | case2 j k l _ ih => rw [ih h.tail]
  | case3 l => rfl

/-- Every minus in a settled list has its left operand. -/
lemma subtractFromZero_eq_self {p : Chunk} {l : List Chunk}
    (hr : hasRunAfter p.isOperator (outline l) = false) (h : (p :: l).IsChain Settled) :
    subtractFromZero (some p) [] l = l := by
  induction l generalizing p with
  | nil => rfl
  | cons k l ih =>
    obtain ⟨hk, hl⟩ := List.isChain_cons_cons.mp h
    rw [Chunk.outline_cons, hasRunAfter, Bool.or_eq_false_iff, isOperatorChar_symbol] at hr
    have hv : k ≠ mark '-' ∨ ∃ j, some p = some j ∧ j ≠ mark '(' ∧ j.isOperator = false := by
      by_cases hm : k = mark '-'
      · refine .inr ⟨p, rfl, hk.2 hm, ?_⟩
        rw [hm] at hr
        exact (Bool.and_eq_false_iff.mp hr.1).resolve_right (by decide)
      · exact .inl hm
    exact (subtractFromZero_cons_of_value hv [] l).trans (congrArg _ (ih hr.2 hl))

/-- A settled list is what its own text spells out. -/
theorem spellChunks_join {l : List Chunk} (hl : Chunk.Canonical l) (hp : Passes (Chunk.join l))
    (hr : ∀ k ∈ l, ∃ t, k.Reads t) (h : (mark '(' :: l).IsChain Settled) :
    spellChunks (Chunk.join l) = l := by
  have hrun : hasRunAfter false (outline l) = false := by
    rw [← (Chunk.alike_outline hl.proper).run, hp.calm]
  have hs : l.IsChain Settled := h.tail
  rw [Chunk.spellChunks_eq, expand_eq_self hp.allowed hp.calm, Chunk.signed,
    Chunk.replaced_join hl hr, insertTimes_eq_self hs, ← subtractFromZero_open]
  exact subtractFromZero_eq_self hrun h

/-- A group that is closed behind a value parts it from what follows. -/
lemma settled_closings {k : Chunk} {pending : List Nat} {r : List Chunk}
    (hk : 1 ∈ pending → r = [] ∨ k.isValue) (h : (k :: r).IsChain Settled) :
    (k :: (closings 1 pending ++ r)).IsChain Settled := by
  rw [closings]
  cases hn : pending.count 1 with
  | zero => exact h
  | succ n =>
    have hc : (List.replicate (n + 1) (mark ')')).IsChain Settled :=
      List.isChain_replicate_of_rel _ (Chunk.settled_close _)
    refine List.isChain_cons.mpr ⟨fun b hb => ?_, List.isChain_append.mpr ⟨hc, h.tail, ?_⟩⟩
    · cases hb
      exact Chunk.settled_close k
    · intro a ha b hb
      obtain rfl : a = mark ')' := List.eq_of_mem_replicate (List.mem_of_mem_getLast? ha)
      obtain rfl | hv := hk (List.count_pos_iff.mp (by omega))
      · cases hb
      · exact (h.rel_head? hb).behind_close hv

/-- Where a group is closed that the pass has opened, a value ends or the list. -/
lemma isValue_of_spans {d e : Nat} {k : Chunk} {l : List Chunk} (h : Spans d 1 (k :: l) e)
    (hk : k.Proper) (ha : isAllowed k.symbol) (hn : k.isName = false) : l = [] ∨ k.isValue := by
  cases h with
  | cons _ h => exact absurd h.pos (Nat.lt_irrefl 0)
  | last _ h =>
    refine h.imp_right fun ⟨ho, hp⟩ => ?_
    cases k with
    | number d => rfl
    | name s => cases hn
    | mark c =>
      obtain rfl | rfl | hc := mark_cases hk ha
      · exact absurd rfl ho
      · rfl
      · rw [show (mark c).isOperator = true from hc] at hp
        cases hp

/-- What is written before a chunk stands behind a parenthesis or an operator. -/
lemma settled_opening {p k : Chunk} {l r : List Chunk} (hp : Parted p k)
    (h : (k :: r).IsChain Settled) : (p :: (opening (some p) k l ++ k :: r)).IsChain Settled := by
  have zero (hm : k = mark '-') : (number ['0'] :: k :: r).IsChain Settled := by
    refine h.cons_cons ⟨fun hk => ?_, fun _ => by simp⟩
    rw [hm] at hk
    cases hk.2
  unfold opening
  split
  · next hi =>
    obtain ⟨hm, hi⟩ := hi
    obtain rfl : p = mark '(' := by simpa using hi
    exact (zero hm).cons_cons (Chunk.settled_of_isValue rfl (by simp))
  · next hi =>
    split
    · next hs =>
      obtain ⟨n, hs⟩ := Option.isSome_iff_exists.mp hs
      obtain ⟨hm, ho, -⟩ := groupedOperand?_eq_some hs
      have hv : p.isValue = false := by
        by_contra hv
        rw [Option.any_some, isOperator_of_isValue (by simpa using hv)] at ho
        cases ho
      have hz := (zero hm).cons_cons (Chunk.settled_of_isValue (j := mark '(') rfl (by simp))
      exact hz.cons_cons (Chunk.settled_of_isValue hv (by simp))
    · exact h.cons_cons ⟨hp, fun hm e => hi ⟨hm, .inr (congrArg some e)⟩⟩

/-- The last pass leads to settled lists, from lists without operands side by side in which names stand
before groups. -/
theorem settled_subtractFromZero {d : Nat} {p : Chunk} {pending : List Nat} {l : List Chunk}
    (h : ∀ n ∈ pending, ∃ e, Spans d n l e) (hl : ∀ k ∈ l, k.Proper)
    (ha : ∀ k ∈ l, isAllowed k.symbol) (hp : (p :: l).IsChain Parted)
    (hg : (subtractFromZero (some p) pending l).IsChain Applied) :
    (p :: subtractFromZero (some p) pending l).IsChain Settled := by
  induction l generalizing d p pending with
  | nil => exact .singleton p
  | cons k l ih =>
    obtain ⟨hk, hl⟩ := List.forall_mem_cons.mp hl
    obtain ⟨hka, ha⟩ := List.forall_mem_cons.mp ha
    obtain ⟨hpk, hp⟩ := List.isChain_cons_cons.mp hp
    obtain ⟨d', hn⟩ := @Spans.exists_next d (some p) k l pending h
    rw [subtractFromZero_cons] at hg ⊢
    obtain ⟨hg, hname⟩ := applied_of_closings (List.isChain_append.mp hg).2.1
    have hr : (k :: (closings 1 pending ++ subtractFromZero (some k)
        ((groupedOperand? (some p) k l).toList ++ advance 1 pending) l)).IsChain Settled := by
      refine settled_closings (fun hm => ?_) (ih hn hl ha hp hg.tail)
      obtain ⟨e, he⟩ := h 1 hm
      exact (isValue_of_spans he hk hka (hname hm)).imp_left fun e => by rw [e]; rfl
    exact settled_opening hpk hr

/-- Whether a text has two points with nothing but digits between them. -/
def HasSecondPoint (s : List Char) : Prop :=
  ∃ d, (∀ c ∈ d, c.isDigit) ∧ '.' :: (d ++ ['.']) <:+: s

/-- A run of digits and points with a second point. -/
lemma hasSecondPoint_of_count {s : List Char} (hs : ∀ c ∈ s, Numeral.isPart c)
    (h : 1 < s.count '.') : HasSecondPoint s := by
  have hm : '.' ∈ s := List.count_pos_iff.mp (Nat.zero_lt_of_lt h)
  obtain ⟨u, t, rfl, hu⟩ := List.eq_append_cons_of_mem hm
  rw [List.count_append, List.count_eq_zero.mpr hu, List.count_cons_self] at h
  have hm : '.' ∈ t := List.count_pos_iff.mp (by omega)
  obtain ⟨d, v, rfl, hd⟩ := List.eq_append_cons_of_mem hm
  refine ⟨d, fun c hc => ?_, u, v, by simp⟩
  have hc' : Numeral.isPart c := hs c (by simp [hc])
  have hp : c ≠ '.' := fun e => hd (e ▸ hc)
  simpa [Numeral.isPart, hp] using hc'

/-- A numeral with a second point is in the text before display symbols are replaced, too. -/
lemma count_le_of_mem_split {raw d : List Char} (h : ¬HasSecondPoint (Text.dropBlanks raw))
    (hd : .numeral d ∈ Lexeme.split (expand raw)) : d.count '.' ≤ 1 := by
  by_contra hc
  have hs : d <:+: expand raw := by
    obtain ⟨u, v, e⟩ := List.append_of_mem hd
    have := Lexeme.flatMap_text_split (expand raw)
    rw [e, List.flatMap_append, List.flatMap_cons] at this
    exact ⟨_, _, (List.append_assoc ..).trans this⟩
  obtain ⟨m, hm, hi⟩ := hasSecondPoint_of_count (Lexeme.isCut_of_mem_split hd).2 (not_le.mp hc)
  refine h ⟨m, hm, (displays_expand raw).infix_of_parts (fun c hc => ?_) (hi.trans hs)⟩
  simp only [List.mem_cons, List.mem_append, List.not_mem_nil, or_false] at hc
  rcases hc with rfl | hc | rfl
  · rfl
  · simp [Numeral.isPart, hm c hc]
  · rfl

/-- What a text with a value spells out is settled. -/
theorem settled_spellChunks {raw : List Char} {x : Float} (h : Computes (spell raw) x)
    (hd : ¬HasSecondPoint (Text.dropBlanks raw)) : (mark '(' :: spellChunks raw).IsChain Settled := by
  obtain ⟨hp, tokens, l, ht, hl, -⟩ := h
  have hr := reads_of_tokenize (canonical_spellChunks raw) ht
  have hg := Chunk.isChain_of_reads Chunk.applied_of_reads hr (Postfix.isChain_of_reorder hl)
  have hi : (Chunk.signed (expand raw)).IsChain Parted :=
    Chunk.isChain_insertTimes (apart_replaced fun d => count_le_of_mem_split hd)
  rw [Chunk.spellChunks_eq, ← subtractFromZero_open] at hg ⊢
  refine @settled_subtractFromZero 0 _ _ _ (by simp) (Chunk.canonical_signed _).proper
    (isAllowed_of_passes hp) (hi.cons fun k _ hk => ?_) hg
  exact Bool.false_ne_true hk.1

/-- Spelling out a text with a value once more changes nothing. -/
theorem spell_spell {raw : List Char} {x : Float} (h : Computes (spell raw) x)
    (hd : ¬HasSecondPoint (Text.dropBlanks raw)) : spell (spell raw) = spell raw := by
  have hs := settled_spellChunks h hd
  obtain ⟨hp, tokens, l, ht, -⟩ := h
  have hr := reads_of_tokenize (canonical_spellChunks raw) ht
  exact congrArg Chunk.join
    (spellChunks_join (canonical_spellChunks raw) hp (fun k => Outcome.exists_of_forall₂ hr) hs)

/-- The spelled-out form of a text with a value is its own, and has the value. -/
theorem normalize_normalize {text : String} {x : Float} (h : evaluate text = .ok x)
    (hd : ¬HasSecondPoint (Text.dropBlanks text.toList)) :
    normalize (normalize text) = normalize text ∧ evaluate (normalize text) = evaluate text := by
  have hs := spell_spell (computes_of_evaluate h).1 hd
  have ht : (normalize text).toList = spell text.toList := String.toList_ofList
  constructor
  · rw [normalize, ht, hs]
    rfl
  · rw [h]
    rw [evaluate, Outcome.mapError_eq_ok] at h ⊢
    rwa [ht, hs]

/-- A text whose second factor gets a group of its own. -/
theorem normalize_normalize_product :
    evaluate "2 × -1.5" = .ok (-3) ∧
      normalize (normalize "2 × -1.5") = normalize "2 × -1.5" ∧
        evaluate (normalize "2 × -1.5") = evaluate "2 × -1.5" := by
  have h : evaluate "2 × -1.5" = .ok (-3) :=
    @evaluate_of_stages _ "2*(0-1.5)".toList
      [.numeral ['2'], .mark '*', .mark '(', .numeral ['0'], .mark '-', .numeral ['1', '.', '5'],
        .mark ')'] _
      (by cbv) (by cbv) (by decide +kernel)
  have hd : ¬HasSecondPoint (Text.dropBlanks "2 × -1.5".toList) := by
    rintro ⟨d, -, hi⟩
    have hc := hi.sublist.count_le '.'
    rw [show Text.dropBlanks "2 × -1.5".toList = "2×-1.5".toList by decide] at hc
    rw [List.count_cons_self, List.count_append] at hc
    exact absurd hc (by simp)
  exact ⟨h, normalize_normalize h hd⟩

/-- Behind a second point a sign is missing. -/
example : spell "2*-1.5.5+".toList = "2*(0-1.5).5+".toList ∧
    spell "2*(0-1.5).5+".toList = "2*(0-1.5)*.5+".toList :=
  ⟨by cbv, by cbv⟩

end Expression

end Reckoner
