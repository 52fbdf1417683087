import Mathlib
import Reckoner.Proofs.Json.Fragment

/-!
# Texts that break off

The text of an object that breaks off before its end is malformed, wherever that is (`read_of_isPrefix`). A text that
breaks off is cut into the first of its tokens and words behind them (`Value.Fits.cutShort`). Words open and close
nothing, so that they do not bring the reading to its end (`foldlM_words`), and there is no other trouble with them than
that they are malformed.
-/

namespace Reckoner

namespace Json

section CutShort

open Piece (textOf)

variable {w w' p : List Char} {ts ts' : List Token} {t : Token} {c : Char} {level n : ℕ}

/-- Wherever the text breaks off, it is cut into the first of the tokens and words behind them. -/
def CutShort (w : List Char) (ts : List Token) : Prop :=
  ∀ p, p <+: w → ∃ before behind words, ts = before ++ behind ∧ Lexes p (before ++ words) ∧ ∀ t ∈ words, t.IsWord

lemma CutShort.scalar {s : Scalar} (hs : s.IsReadable) : CutShort (writeScalar s) [s.token] := by
  intro p hp
  obtain ⟨words, hlexes, hwords⟩ := exists_words hs hp
  exact ⟨[], [s.token], words, rfl, hlexes, hwords⟩

lemma CutShort.nil : CutShort [] [] := by
  intro p hp
  rw [List.prefix_nil.mp hp]
  exact ⟨[], [], [], rfl, lexes_nil, by simp⟩

lemma CutShort.mark (h : CutShort w ts) (hc : mark? c = some t) : CutShort (c :: w) (t :: ts) := by
  intro p hp
  cases p with
  | nil => exact ⟨[], t :: ts, [], rfl, lexes_nil, by simp⟩
  | cons d p =>
    obtain ⟨rfl, hp'⟩ := List.cons_prefix_cons.mp hp
    obtain ⟨before, behind, words, rfl, hlexes, hwords⟩ := h p hp'
    exact ⟨t :: before, behind, words, rfl, hlexes.mark hc, hwords⟩

lemma CutShort.spaces (h : CutShort w ts) (hw : ∀ c ∈ w', isSpace c = true) : CutShort (w' ++ w) ts := by
  induction w' with
  | nil => exact h
  | cons c w' ih =>
    rw [List.forall_mem_cons] at hw
    intro p hp
    cases p with
    | nil => exact ⟨[], ts, [], rfl, lexes_nil, by simp⟩
    | cons d p =>
      obtain ⟨rfl, hp'⟩ := List.cons_prefix_cons.mp hp
      obtain ⟨before, behind, words, hts, hlexes, hwords⟩ := ih hw.2 p hp'
      exact ⟨before, behind, words, hts, hlexes.space hw.1, hwords⟩

lemma Ends.of_prefix (h : Ends w) (hp : p <+: w) : Ends p := by
  obtain ⟨more, rfl⟩ := hp
  cases p with
  | nil => exact ends_nil
  | cons c p => exact h

/-- A text that breaks off in its second half has the tokens of its first half. -/
lemma CutShort.append (h : CutShort w ts) (hall : CutInto w ts) (h' : CutShort w' ts') (hends : Ends w') :
    CutShort (w ++ w') (ts ++ ts') := by
  intro p hp
  obtain hp | ⟨q, rfl⟩ := List.prefix_or_prefix_of_prefix hp (List.prefix_append w w')
  · obtain ⟨before, behind, words, rfl, hlexes, hwords⟩ := h p hp
    exact ⟨before, behind ++ ts', words, by rw [List.append_assoc], hlexes, hwords⟩
  · have hbegins := (List.prefix_append_right_inj w).mp hp
    obtain ⟨before, behind, words, rfl, hlexes, hwords⟩ := h' q hbegins
    have hq : Ends q := hends.of_prefix hbegins
    refine ⟨ts ++ before, behind, words, by rw [List.append_assoc], ?_, hwords⟩
    rw [List.append_assoc]
    exact hall q _ hq hlexes

/-- The parts are cut into their tokens, and so are their beginnings. -/
def PartsCutShort (parts : List (List Piece)) (tokens : List (List Token)) : Prop :=
  List.Forall₂ (fun part ts => CutShort (textOf part) ts ∧ CutInto (textOf part) ts) parts tokens

lemma PartsCutShort.partsCutInto {parts : List (List Piece)} {tokens : List (List Token)}
    (h : PartsCutShort parts tokens) : PartsCutInto parts tokens :=
  h.imp fun _ _ hpart => hpart.2

lemma ends_commas (parts : List (List Piece)) : Ends (behindCommas level parts) := by
  have h : Ends (behindCommas level parts ++ []) := ends_behindCommas parts ends_nil
  rwa [List.append_nil] at h

lemma CutShort.behindCommas (level : ℕ) {parts : List (List Piece)} {tokens : List (List Token)}
    (h : PartsCutShort parts tokens) : CutShort (behindCommas level parts) (tokens.flatMap ([.comma] ++ ·)) := by
  induction h with
  | nil => exact .nil
  | @cons part ts parts tokens hpart _ ih =>
    have hbehind := hpart.1.append hpart.2 ih (ends_commas parts)
    have hcomma : CutShort (',' :: _) (.comma :: _) := (hbehind.spaces (isSpace_lineBreak level)).mark rfl
    simpa only [Json.behindCommas, List.flatMap_cons, List.append_assoc, List.cons_append, List.nil_append] using hcomma

/-- Parts behind a bracket, up to what comes behind them. -/
lemma CutShort.parts (level : ℕ) {part : List Piece} {parts : List (List Piece)} {tokens : List (List Token)}
    {behind : List Char} (h : CutShort (textOf part) ts) (hall : CutInto (textOf part) ts)
    (hparts : PartsCutShort parts tokens) (hbehind : CutShort behind ts') (hends : Ends behind) :
    CutShort (lineBreak (level + 1) ++ (textOf part ++ (Json.behindCommas (level + 1) parts ++ behind)))
      (ts ++ (tokens.flatMap ([.comma] ++ ·) ++ ts')) := by
  have hcommas := (CutShort.behindCommas (level + 1) hparts).append
    (CutInto.behindCommas (level + 1) hparts.partsCutInto) hbehind hends
  exact (h.append hall hcommas (ends_behindCommas parts hends)).spaces (isSpace_lineBreak (level + 1))

lemma CutShort.lineBreak (level : ℕ) : CutShort (lineBreak level) [] := by
  have h := CutShort.nil.spaces (isSpace_lineBreak level)
  rwa [List.append_nil] at h

/-- Parts between brackets. -/
lemma CutShort.enclosed {part : List Piece} {parts : List (List Piece)} {tokens : List (List Token)}
    {opening closing : Char} {t t' : Token} (h : CutShort (textOf part) ts) (hall : CutInto (textOf part) ts)
    (hparts : PartsCutShort parts tokens) (ho : mark? opening = some t) (hc : mark? closing = some t') :
    CutShort (enclosed level opening closing part parts)
      (t :: (List.intercalate [.comma] (ts :: tokens) ++ [t'])) := by
  have hclose : CutShort (Json.lineBreak level ++ [closing]) [t'] :=
    (CutShort.nil.mark hc).spaces (isSpace_lineBreak level)
  rw [intercalate_cons, List.append_assoc]
  exact (CutShort.parts level h hall hparts hclose (ends_lineBreak level)).mark ho

lemma CutShort.brackets {opening closing : Char} {t t' : Token} (ho : mark? opening = some t)
    (hc : mark? closing = some t') : CutShort [opening, closing] [t, t'] :=
  (CutShort.nil.mark hc).mark ho

lemma CutShort.list {items : List (List Piece)} {tokens : List (List Token)} (h : PartsCutShort items tokens) :
    CutShort (textOf (listPieces level items)) (.openList :: (List.intercalate [.comma] tokens ++ [.closeList])) := by
  cases h with
  | nil => exact .brackets rfl rfl
  | cons hpart hparts =>
    rw [textOf_listPieces]
    exact .enclosed hpart.1 hpart.2 hparts rfl rfl

lemma CutShort.object {entries : List (List Piece)} {tokens : List (List Token)} (h : PartsCutShort entries tokens) :
    CutShort (textOf (objectPieces level entries))
      (.openObject :: (List.intercalate [.comma] tokens ++ [.closeObject])) := by
  cases h with
  | nil => exact .brackets rfl rfl
  | cons hpart hparts =>
    rw [textOf_objectPieces]
    exact .enclosed hpart.1 hpart.2 hparts rfl rfl

/-- An entry that breaks off does so in its key or in its value. -/
lemma CutShort.entry {key : List CodePoint} {ps : List Piece} (hkey : Unpaired key) (h : CutShort (textOf ps) ts) :
    CutShort (textOf (keyPiece (.text key) :: ps)) (.scalar (.text key) :: .colon :: ts) := by
  have hlegible : (Scalar.text key).IsLegible := hkey
  have hvalue : CutShort (':' :: ([' '] ++ textOf ps)) (.colon :: ts) := (h.spaces (by simp [isSpace])).mark rfl
  have hall := (CutShort.scalar ⟨hlegible, rfl⟩).append (CutInto.scalar hlegible) hvalue (ends_cons (by decide))
  rw [textOf_cons, keyPiece, keyText]
  simpa only [writeScalar, Scalar.token, List.append_assoc, List.cons_append, List.nil_append] using hall

lemma partsCutShort_items {items : List Value}
    (h : ∀ v ∈ items, CutShort (textOf (pieces level v)) v.tokens ∧ CutInto (textOf (pieces level v)) v.tokens) :
    PartsCutShort (itemPieces level items) (itemTokens items) := by
  induction items with
  | nil => exact .nil
  | cons v items ih =>
    rw [List.forall_mem_cons] at h
    exact .cons h.1 (ih h.2)

lemma partsCutShort_entries {entries : List (List CodePoint × Value)} (hkeys : ∀ entry ∈ entries, Unpaired entry.1)
    (h : ∀ entry ∈ entries, CutShort (textOf (pieces level entry.2)) entry.2.tokens ∧
      CutInto (textOf (pieces level entry.2)) entry.2.tokens) :
    PartsCutShort (entryPieces level entries) (entryTokens entries) := by
  induction entries with
  | nil => exact .nil
  | cons entry entries ih =>
    rw [List.forall_mem_cons] at h hkeys
    exact .cons ⟨.entry hkeys.1 h.1.1, .entry hkeys.1 h.1.2⟩ (ih hkeys.2 h.2)

/-- Wherever the text of a value breaks off, it has the first of the tokens of the value and words behind them. -/
theorem Value.Fits.cutShort {v : Value} (h : v.Fits Scalar.IsReadable n) (level : ℕ) :
    CutShort (textOf (pieces level v)) v.tokens := by
  have hlegible {n : ℕ} {v : Value} (h : v.Fits Scalar.IsReadable n) : v.Fits Scalar.IsLegible n :=
    h.mono fun _ hs => hs.1
  induction h generalizing level with
  | scalar hs =>
    rw [pieces, textOf, List.flatMap_singleton, Value.tokens]
    exact .scalar hs
  | list hitems ih =>
    rw [pieces, Value.tokens]
    exact .list (partsCutShort_items fun v hv => ⟨ih v hv (level + 1), (hlegible (hitems v hv)).cutInto (level + 1)⟩)
  | object hkeys _ hentries ih =>
    rw [pieces, Value.tokens]
    exact .object (partsCutShort_entries hkeys fun entry he =>
      ⟨ih entry he (level + 1), (hlegible (hentries entry he)).cutInto (level + 1)⟩)

/-- What stands between the brackets of an object. -/
lemma exists_body (level : ℕ) {entries : List (List Piece)} {tokens : List (List Token)}
    (h : PartsCutShort entries tokens) :
    ∃ body, textOf (objectPieces level entries) = '{' :: (body ++ ['}']) ∧
      CutShort body (List.intercalate [.comma] tokens) := by
  cases h with
  | nil => exact ⟨[], rfl, .nil⟩
  | @cons part ts parts tokens hpart hparts =>
    refine ⟨Json.lineBreak (level + 1) ++
      (textOf part ++ (Json.behindCommas (level + 1) parts ++ Json.lineBreak level)), ?_, ?_⟩
    · rw [textOf_objectPieces, Json.enclosed]
      simp only [List.append_assoc]
    · have hends : Ends (Json.lineBreak level) := ends_cons (by decide)
      have hbody := CutShort.parts level hpart.1 hpart.2 hparts (.lineBreak level) hends
      rwa [List.append_nil, ← intercalate_cons] at hbody

/-- An object that is not written to its end is not closed. -/
lemma exists_tokens_of_isPrefix {entries : List (List CodePoint × Value)}
    (h : (Value.object entries).Fits Scalar.IsReadable n) (hp : p <+: textOf (pieces 0 (.object entries)))
    (hne : p ≠ textOf (pieces 0 (.object entries))) :
    p = [] ∨ ∃ before behind words,
      (Value.object entries).tokens = .openObject :: before ++ (behind ++ [.closeObject]) ∧
      Lexes p (.openObject :: before ++ words) ∧ ∀ t ∈ words, t.IsWord := by
  cases h with
  | object hkeys _ hentries =>
    have hparts : PartsCutShort (entryPieces 1 entries) (entryTokens entries) :=
      partsCutShort_entries hkeys fun entry he =>
        ⟨(hentries entry he).cutShort 1, ((hentries entry he).mono fun _ hs => hs.1).cutInto 1⟩
    obtain ⟨body, htext, hbody⟩ := exists_body 0 hparts
    rw [pieces, htext] at hp hne
    cases p with
    | nil => exact .inl rfl
    | cons c p =>
      obtain ⟨rfl, hp'⟩ := List.cons_prefix_cons.mp hp
      obtain hfull | hp' := List.prefix_concat_iff.mp hp'
      · exact absurd (congrArg _ hfull) hne
      · obtain ⟨before, behind, words, htokens, hlexes, hwords⟩ := hbody p hp'
        refine .inr ⟨before, behind, words, ?_, hlexes.mark rfl, hwords⟩
        rw [Value.tokens, htokens, List.append_assoc]
        rfl

end CutShort

section Reading

variable {depth n : ℕ} {σ σ' : State} {t : Token} {ts : List Token}

/-- The reading is at its end. -/
def State.IsFinished (σ : State) : Prop :=
  ∃ v, σ = ⟨[], .after v⟩

/-- Wherever a value may come next, it comes inside a list or an object. -/
def State.IsInside (σ : State) : Prop :=
  σ.next = .value ∨ σ.next = .firstItem → σ.frames ≠ []

/-- Nothing may come behind the end. -/
lemma step_finished (h : σ.IsFinished) (t : Token) : step depth σ t = .error .malformed := by
  obtain ⟨v, rfl⟩ := h
  cases t <;> rfl

lemma begin_inside {frames : List Frame} (h : begin depth frames t = .ok σ) : σ.IsInside := by
  intro hnext
  obtain ⟨s, rfl⟩ | rfl | rfl := begin_cases h
  · obtain hnext | hnext := hnext <;> cases hnext
  · exact List.cons_ne_nil _ _
  · obtain hnext | hnext := hnext <;> cases hnext

/-- After any token a value comes inside a list or an object. -/
lemma step_inside (h : step depth σ t = .ok σ') : σ'.IsInside := by
  rw [step.eq_def] at h
  split at h
  case h_2 => exact begin_inside h
  case h_3 => exact begin_inside h
  case h_7 =>
    cases h
    exact fun _ => List.cons_ne_nil _ _
  case h_8 =>
    cases h
    exact fun _ => List.cons_ne_nil _ _
  -- the other tokens leave no place for a value
  all_goals
    intro hnext
    cases h <;> obtain hnext | hnext := hnext <;> cases hnext

lemma foldlM_inside (hne : ts ≠ []) (h : ts.foldlM (step depth) σ = .ok σ') : σ'.IsInside := by
  induction ts generalizing σ with
  | nil => exact absurd rfl hne
  | cons t ts ih =>
    rw [List.foldlM_cons] at h
    obtain ⟨next, hstep, hrest⟩ := Outcome.bind_eq_ok.mp h
    by_cases hts : ts = []
    · subst hts
      cases hrest
      exact step_inside hstep
    · exact ih hts hrest

/-- A word is a scalar, an integer or no word of JSON at all. -/
lemma Token.IsWord.cases (h : t.IsWord) :
    (∃ s, t = .scalar s) ∨ (∃ negative digits, t = .integer negative digits ∧ digits.length ≤ Number.maxWholeDigits) ∨
      t = .invalid := by
  cases t with
  | scalar s => exact .inl ⟨s, rfl⟩
  | integer negative digits => exact .inr (.inl ⟨negative, digits, rfl, h⟩)
  | invalid => exact .inr (.inr rfl)
  | _ => exact h.elim

/-- Where a value may come next, a word is read as a scalar or is malformed. -/
lemma begin_word (depth : ℕ) (h : t.IsWord) (frames : List Frame) :
    begin depth frames t = .error .malformed ∨ ∃ s, begin depth frames t = .ok ⟨frames, .after (.scalar s)⟩ := by
  obtain ⟨s, rfl⟩ | ⟨negative, digits, rfl, hdigits⟩ | rfl := h.cases
  · exact .inr ⟨s, rfl⟩
  · rw [begin, integer, if_neg (not_lt.mpr hdigits)]
    exact .inr ⟨_, rfl⟩
  · exact .inl rfl

/-- Where a key may come next, a text is read as the key and any other word is malformed. -/
lemma step_key_word (depth : ℕ) (h : t.IsWord) (frames : List Frame) {entries : List (List CodePoint × Value)}
    {place : Next} (hplace : place = .firstKey entries ∨ place = .key entries) :
    step depth ⟨frames, place⟩ t = .error .malformed ∨
      ∃ key, step depth ⟨frames, place⟩ t = .ok ⟨frames, .colon entries key⟩ := by
  obtain ⟨s, rfl⟩ | ⟨negative, digits, rfl, -⟩ | rfl := h.cases
  · cases s with
    | text key => exact .inr ⟨key, by obtain rfl | rfl := hplace <;> rfl⟩
    | _ => exact .inl (by obtain rfl | rfl := hplace <;> rfl)
  · exact .inl (by obtain rfl | rfl := hplace <;> rfl)
  · exact .inl (by obtain rfl | rfl := hplace <;> rfl)

/-- Behind a value and where a colon has to come, a word is malformed. -/
lemma step_word_malformed (depth : ℕ) (h : t.IsWord) (frames : List Frame) {place : Next}
    (hplace : (∃ entries key, place = .colon entries key) ∨ ∃ v, place = .after v) :
    step depth ⟨frames, place⟩ t = .error .malformed := by
  obtain ⟨entries, key, rfl⟩ | ⟨v, rfl⟩ := hplace
  · obtain ⟨s, rfl⟩ | ⟨negative, digits, rfl, -⟩ | rfl := h.cases <;> rfl
  · obtain ⟨s, rfl⟩ | ⟨negative, digits, rfl, -⟩ | rfl := h.cases <;>
      rcases frames with _ | ⟨_ | _, _⟩ <;> rfl

/-- A word opens and closes nothing, so that the reading is not at its end behind it. -/
lemma step_word (depth : ℕ) (h : t.IsWord) (hinside : σ.IsInside) (hopen : ¬σ.IsFinished) :
    step depth σ t = .error .malformed ∨ ∃ σ', step depth σ t = .ok σ' ∧ ¬σ'.IsFinished := by
  obtain ⟨frames, next⟩ := σ
  have hvalue : frames ≠ [] → step depth ⟨frames, .value⟩ t = .error .malformed ∨
      ∃ σ', step depth ⟨frames, .value⟩ t = .ok σ' ∧ ¬σ'.IsFinished := by
    intro hframes
    obtain hbegin | ⟨s, hbegin⟩ := begin_word depth h frames
    · exact .inl hbegin
    · refine .inr ⟨_, hbegin, ?_⟩
      rintro ⟨v, hv⟩
      cases hv
      exact hframes rfl
  cases next with
  | value => exact hvalue (hinside (.inl rfl))
  | firstItem =>
    have hclose : t ≠ .closeList := by
      rintro rfl
      exact h
    rw [step_firstItem hclose]
    exact hvalue (hinside (.inr rfl))
  | firstKey entries =>
    obtain hstep | ⟨key, hstep⟩ := step_key_word depth h frames (.inl (rfl : Next.firstKey entries = _))
    · exact .inl hstep
    · exact .inr ⟨_, hstep, fun ⟨v, hv⟩ => by cases hv⟩
  | key entries =>
    obtain hstep | ⟨key, hstep⟩ := step_key_word depth h frames (.inr (rfl : Next.key entries = _))
    · exact .inl hstep
    · exact .inr ⟨_, hstep, fun ⟨v, hv⟩ => by cases hv⟩
  | colon entries key => exact .inl (step_word_malformed depth h frames (.inl ⟨entries, key, rfl⟩))
  | after v => exact .inl (step_word_malformed depth h frames (.inr ⟨v, rfl⟩))

/-- Words do not bring the reading to its end. -/
lemma foldlM_words (h : ∀ t ∈ ts, t.IsWord) (hinside : σ.IsInside) (hopen : ¬σ.IsFinished) :
    ts.foldlM (step depth) σ = .error .malformed ∨ ∃ σ', ts.foldlM (step depth) σ = .ok σ' ∧ ¬σ'.IsFinished := by
  induction ts generalizing σ with
  | nil => exact .inr ⟨σ, rfl, hopen⟩
  | cons t ts ih =>
    rw [List.forall_mem_cons] at h
    rw [List.foldlM_cons]
    obtain hstep | ⟨next, hstep, hnext⟩ := step_word depth h.1 hinside hopen
    · exact .inl (by rw [hstep]; rfl)
    · rw [hstep]
      exact ih h.2 (step_inside hstep) hnext

/-- Tokens that do not bring the reading to its end are malformed. -/
lemma ofTokens_malformed (h : ts.foldlM (step depth) ⟨[], .value⟩ = .error .malformed ∨
    ∃ σ, ts.foldlM (step depth) ⟨[], .value⟩ = .ok σ ∧ ¬σ.IsFinished) : ofTokens depth ts = .error .malformed := by
  obtain h | ⟨σ, h, hopen⟩ := h
  · rw [ofTokens, h]
    rfl
  · rw [ofTokens, h, Outcome.ok_bind]
    split
    · next v => exact absurd ⟨v, rfl⟩ hopen
    · rfl

/-- An object that is not written to its end is malformed. -/
theorem read_of_isPrefix {entries : List (List CodePoint × Value)} {p : List Char}
    (h : (Value.object entries).Fits Scalar.IsReadable depth) (hp : p <+: Piece.textOf (pieces 0 (.object entries)))
    (hne : p ≠ Piece.textOf (pieces 0 (.object entries))) : read depth (String.ofList p) = .error .malformed := by
  rw [read, String.toList_ofList]
  obtain rfl | ⟨before, behind, words, htokens, hlexes, hwords⟩ := exists_tokens_of_isPrefix h hp hne
  · rfl
  · -- the tokens that were written are read, and not to the end, since others followed them
    have hall : Runs depth (Value.object entries).tokens ⟨[], .value⟩ ⟨[], .after (.object entries)⟩ :=
      h.isRead [] (by simp)
    rw [htokens, Runs, List.foldlM_append] at hall
    obtain ⟨σ, hbefore, hbehind⟩ := Outcome.bind_eq_ok.mp hall
    have hopen : ¬σ.IsFinished := by
      intro hfinished
      obtain ⟨t, ts, hts⟩ := List.exists_cons_of_ne_nil (List.append_ne_nil_of_right_ne_nil behind
        (List.cons_ne_nil Token.closeObject []))
      rw [hts, List.foldlM_cons, step_finished hfinished] at hbehind
      cases hbehind
    rw [hlexes.tokens]
    refine ofTokens_malformed ?_
    rw [List.foldlM_append, hbefore]
    exact foldlM_words hwords (foldlM_inside (List.cons_ne_nil _ _) hbefore) hopen

end Reading

end Json

end Reckoner
