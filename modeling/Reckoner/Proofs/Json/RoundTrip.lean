import Mathlib
import Reckoner.Json.Reader
import Reckoner.Json.Writer
import Reckoner.Proofs.Json.Entries
import Reckoner.Proofs.Json.Word
import Reckoner.Proofs.Outcome

/-!
# Reading what is written

The text of a value is read as the value (`read_write`). A value has its tokens (`Value.tokens`), and the two halves
meet there: whatever stands between the parts of a value, its text is cut into these tokens (`tokens_write`), and the
tokens take the reading from a place for a value to the place after it, with the lists and objects that are open left as
they are (`Value.Fits.isRead`). The first half needs texts without pairs of surrogates, the second what the reader asks
for: whole numbers with not too many digits, not too many levels, and different keys in one object.
-/

namespace Reckoner

namespace Json

/-- The parts one after the other, each but the first with the separator before it. -/
lemma intercalate_cons {α : Type} (sep part : List α) (parts : List (List α)) :
    List.intercalate sep (part :: parts) = part ++ parts.flatMap (sep ++ ·) := by
  induction parts generalizing part with
  | nil => simp
  | cons next parts ih => rw [List.intercalate_cons_cons, ih, List.flatMap_cons, List.append_assoc, List.append_assoc]

section Value

mutual

/-- The tokens that a value is written in. -/
def Value.tokens : Value → List Token
  | .scalar s => [s.token]
  | .list items => .openList :: (List.intercalate [.comma] (itemTokens items) ++ [.closeList])
  | .object entries => .openObject :: (List.intercalate [.comma] (entryTokens entries) ++ [.closeObject])

/-- The tokens of each item of a list. -/
def itemTokens : List Value → List (List Token)
  | [] => []
  | v :: rest => v.tokens :: itemTokens rest

/-- The tokens of each entry of an object. -/
def entryTokens : List (List CodePoint × Value) → List (List Token)
  | [] => []
  | (key, v) :: rest => (.scalar (.text key) :: .colon :: v.tokens) :: entryTokens rest

end

/-- A scalar is readable if it is legible and, as a whole number, has no more digits than are read. -/
def Scalar.IsReadable (s : Scalar) : Prop :=
  s.IsLegible ∧ s.isWritable = true

/-- The value has at most so many levels of lists and objects, the keys of an object are different and legible, and
every scalar has the property. -/
inductive Value.Fits (P : Scalar → Prop) : ℕ → Value → Prop where
  | scalar {n s} :
    P s →
    Fits P n (.scalar s)
  | list {n items} :
    (∀ v ∈ items, Fits P n v) →
    Fits P (n + 1) (.list items)
  | object {n entries} :
    (∀ entry ∈ entries, Unpaired entry.1) →
    (entries.map Prod.fst).Nodup →
    (∀ entry ∈ entries, Fits P n entry.2) →
    Fits P (n + 1) (.object entries)

lemma Value.Fits.mono {P Q : Scalar → Prop} {n : ℕ} {v : Value} (h : v.Fits P n) (hPQ : ∀ s, P s → Q s) :
    v.Fits Q n := by
  induction h with
  | scalar hs => exact .scalar (hPQ _ hs)
  | list _ ih => exact .list ih
  | object hlegible hkeys _ ih => exact .object hlegible hkeys ih

end Value

section Pieces

open Piece (textOf)

variable {ps qs : List Piece} {parts : List (List Piece)} {before between : List Char} {level : ℕ}

lemma textOf_append : textOf (ps ++ qs) = textOf ps ++ textOf qs :=
  List.flatMap_append

lemma textOf_cons (piece : Piece) : textOf (piece :: ps) = piece.text ++ textOf ps :=
  List.flatMap_cons

lemma textOf_behind : textOf (Piece.behind before ps) = before ++ textOf ps := by
  cases ps with
  | nil => rfl
  | cons piece ps => rw [Piece.behind, textOf_cons, textOf_cons, List.append_assoc]

lemma textOf_separated :
    textOf (separated between between parts) = parts.flatMap fun part => between ++ textOf part := by
  induction parts with
  | nil => rfl
  | cons part parts ih => rw [separated, textOf_append, textOf_behind, ih, List.flatMap_cons]

/-- The parts that follow the first one, behind commas and breaks. -/
def behindCommas (level : ℕ) (parts : List (List Piece)) : List Char :=
  parts.flatMap fun part => ',' :: lineBreak level ++ textOf part

/-- The text of parts between two brackets. -/
def enclosed (level : ℕ) (opening closing : Char) (part : List Piece) (parts : List (List Piece)) : List Char :=
  opening ::
    (lineBreak (level + 1) ++ (textOf part ++ (behindCommas (level + 1) parts ++ (lineBreak level ++ [closing]))))

lemma textOf_listPieces (part : List Piece) (parts : List (List Piece)) :
    textOf (listPieces level (part :: parts)) = enclosed level '[' ']' part parts := by
  rw [listPieces, if_neg (by simp), separated, textOf_cons, textOf_append, textOf_append, textOf_behind,
    textOf_separated]
  simp only [textOf, enclosed, behindCommas, List.nil_append, List.append_assoc, List.cons_append,
    List.flatMap_singleton]

lemma textOf_objectPieces (part : List Piece) (parts : List (List Piece)) :
    textOf (objectPieces level (part :: parts)) = enclosed level '{' '}' part parts := by
  rw [objectPieces, if_neg (by simp), separated, textOf_cons, textOf_append, textOf_append, textOf_behind,
    textOf_separated]
  simp only [textOf, enclosed, behindCommas, List.nil_append, List.append_assoc, List.cons_append,
    List.flatMap_singleton]

end Pieces

section Lexing

open Piece (textOf)

variable {s w rest : List Char} {l ts : List Token} {t : Token} {c : Char} {level n : ℕ}

/-- The text is cut into the tokens, given enough fuel. -/
def Lexes (s : List Char) (l : List Token) : Prop :=
  ∀ fuel, s.length < fuel → tokensWithin fuel s = l

lemma Lexes.tokens (h : Lexes s l) : tokens s = l :=
  h _ (Nat.lt_succ_self _)

lemma lexes_nil : Lexes [] [] := by
  intro fuel hfuel
  cases fuel with
  | zero => exact absurd hfuel (Nat.not_lt_zero _)
  | succ fuel => rfl

lemma Lexes.space (h : Lexes s l) (hc : isSpace c = true) : Lexes (c :: s) l := by
  intro fuel hfuel
  cases fuel with
  | zero => exact absurd hfuel (Nat.not_lt_zero _)
  | succ fuel =>
    -- a space is dropped before any fuel is used
    have hskip : tokensWithin (fuel + 1) (c :: s) = tokensWithin (fuel + 1) s := by
      rw [tokensWithin, tokensWithin, List.dropWhile_cons_of_pos hc]
    rw [hskip]
    exact h _ (Nat.lt_of_succ_lt hfuel)

lemma Lexes.spaces (h : Lexes s l) (hw : ∀ c ∈ w, isSpace c = true) : Lexes (w ++ s) l := by
  induction w with
  | nil => exact h
  | cons c w ih =>
    rw [List.forall_mem_cons] at hw
    exact (ih hw.2).space hw.1

lemma Lexes.token (h : Lexes rest l) (hw : w ≠ []) (ht : token? (w ++ rest) = some (t, rest)) :
    Lexes (w ++ rest) (t :: l) := by
  obtain ⟨c, w, rfl⟩ := List.exists_cons_of_ne_nil hw
  rw [List.cons_append] at ht ⊢
  have hc : ¬isSpace c = true := by
    intro hc
    rw [token?_space hc] at ht
    cases ht
  intro fuel hfuel
  cases fuel with
  | zero => exact absurd hfuel (Nat.not_lt_zero _)
  | succ fuel =>
    rw [List.length_cons, List.length_append] at hfuel
    rw [tokensWithin, List.dropWhile_cons_of_neg hc]
    simp only [ht]
    rw [h fuel (by omega)]

lemma Lexes.mark (h : Lexes rest l) (hc : mark? c = some t) : Lexes (c :: rest) (t :: l) := by
  have ht : token? ([c] ++ rest) = some (t, rest) := by
    rw [List.singleton_append, token?, hc]
  exact h.token (List.cons_ne_nil c []) ht

/-- The text is cut into the tokens, whatever follows, as long as that does not go on with a number. -/
def CutInto (w : List Char) (ts : List Token) : Prop :=
  ∀ rest l, Ends rest → Lexes rest l → Lexes (w ++ rest) (ts ++ l)

lemma ends_nil : Ends [] := by
  intro c hc
  cases hc

lemma ends_cons (hc : c.isDigit = false ∧ c ≠ '.' ∧ c ≠ 'e' ∧ c ≠ 'E') : Ends (c :: rest) := by
  intro d hd
  obtain rfl : c = d := Option.some.inj hd
  exact hc

lemma isSpace_lineBreak (level : ℕ) : ∀ c ∈ lineBreak level, isSpace c = true := by
  refine List.forall_mem_cons.mpr ⟨rfl, fun c hc => ?_⟩
  rw [List.eq_of_mem_replicate hc]
  rfl

lemma ends_lineBreak (level : ℕ) : Ends (lineBreak level ++ rest) :=
  ends_cons (by decide)

lemma CutInto.nil : CutInto [] [] :=
  fun _ _ _ h => h

lemma CutInto.scalar {s : Scalar} (hs : s.IsLegible) : CutInto (writeScalar s) [s.token] := by
  have hne : writeScalar s ≠ [] := by
    intro hnil
    have ht := token?_writeScalar hs ends_nil
    rw [hnil] at ht
    cases ht
  exact fun rest l hrest hl => hl.token hne (token?_writeScalar hs hrest)

/-- What comes behind a part is a comma or what comes behind the last part. -/
lemma ends_behindCommas (parts : List (List Piece)) (hrest : Ends rest) : Ends (behindCommas level parts ++ rest) := by
  cases parts with
  | nil => exact hrest
  | cons part parts =>
    rw [behindCommas, List.flatMap_cons]
    exact ends_cons (by decide)

/-- The parts are cut into their tokens. -/
def PartsCutInto (parts : List (List Piece)) (tokens : List (List Token)) : Prop :=
  List.Forall₂ (fun part ts => CutInto (textOf part) ts) parts tokens

/-- Parts behind commas are cut into their tokens behind commas. -/
lemma CutInto.behindCommas (level : ℕ) {parts : List (List Piece)} {tokens : List (List Token)}
    (h : PartsCutInto parts tokens) : CutInto (behindCommas level parts) (tokens.flatMap ([.comma] ++ ·)) := by
  induction h with
  | nil => exact .nil
  | @cons part ts parts tokens hpart _ ih =>
    intro rest l hrest hl
    have hbehind := hpart _ _ (ends_behindCommas parts hrest) (ih rest l hrest hl)
    have hcomma : Lexes (',' :: _) (.comma :: _) := (hbehind.spaces (isSpace_lineBreak level)).mark rfl
    simpa only [Json.behindCommas, List.flatMap_cons, List.append_assoc, List.cons_append, List.nil_append] using hcomma

/-- Parts between brackets are cut into their tokens between brackets. -/
lemma CutInto.enclosed {part : List Piece} {parts : List (List Piece)} {tokens : List (List Token)}
    {opening closing : Char} {t t' : Token} (h : CutInto (textOf part) ts) (hparts : PartsCutInto parts tokens)
    (ho : mark? opening = some t) (hc : mark? closing = some t') :
    CutInto (enclosed level opening closing part parts) (t :: (List.intercalate [.comma] (ts :: tokens) ++ [t'])) := by
  intro rest l hrest hl
  have hclose : Lexes (closing :: rest) (t' :: l) := hl.mark hc
  have hend : Ends (lineBreak level ++ closing :: rest) := ends_lineBreak level
  have hbreak := hclose.spaces (isSpace_lineBreak level)
  have hlast := CutInto.behindCommas (level + 1) hparts _ _ hend hbreak
  have hfirst := h _ _ (ends_behindCommas parts hend) hlast
  have hopen := (hfirst.spaces (isSpace_lineBreak (level + 1))).mark ho
  rw [Json.enclosed, intercalate_cons]
  simpa only [List.append_assoc, List.cons_append, List.nil_append] using hopen

/-- Two brackets with nothing between them. -/
lemma CutInto.brackets {opening closing : Char} {t t' : Token} (ho : mark? opening = some t)
    (hc : mark? closing = some t') : CutInto [opening, closing] [t, t'] :=
  fun _ _ _ hl => (hl.mark hc).mark ho

lemma CutInto.list {items : List (List Piece)} {tokens : List (List Token)} (h : PartsCutInto items tokens) :
    CutInto (textOf (listPieces level items)) (.openList :: (List.intercalate [.comma] tokens ++ [.closeList])) := by
  cases h with
  | nil => exact .brackets rfl rfl
  | cons hpart hparts =>
    rw [textOf_listPieces]
    exact .enclosed hpart hparts rfl rfl

lemma CutInto.object {entries : List (List Piece)} {tokens : List (List Token)} (h : PartsCutInto entries tokens) :
    CutInto (textOf (objectPieces level entries))
      (.openObject :: (List.intercalate [.comma] tokens ++ [.closeObject])) := by
  cases h with
  | nil => exact .brackets rfl rfl
  | cons hpart hparts =>
    rw [textOf_objectPieces]
    exact .enclosed hpart hparts rfl rfl

/-- An entry is cut into its key, a colon and the tokens of its value. -/
lemma CutInto.entry {key : List CodePoint} {ps : List Piece} (hkey : Unpaired key) (h : CutInto (textOf ps) ts) :
    CutInto (textOf (keyPiece (.text key) :: ps)) (.scalar (.text key) :: .colon :: ts) := by
  intro rest l hrest hl
  have hspace : Lexes (' ' :: (textOf ps ++ rest)) (ts ++ l) := (h rest l hrest hl).space rfl
  have hcolon : Lexes (':' :: ' ' :: (textOf ps ++ rest)) (.colon :: (ts ++ l)) := hspace.mark rfl
  have hlegible : (Scalar.text key).IsLegible := hkey
  have hall := CutInto.scalar hlegible _ _ (ends_cons (by decide)) hcolon
  rw [textOf_cons, keyPiece, keyText]
  simpa only [writeScalar, Scalar.token, List.append_assoc, List.cons_append, List.nil_append] using hall

lemma partsCutInto_items {items : List Value} (h : ∀ v ∈ items, CutInto (textOf (pieces level v)) v.tokens) :
    PartsCutInto (itemPieces level items) (itemTokens items) := by
  induction items with
  | nil => exact .nil
  | cons v items ih =>
    rw [List.forall_mem_cons] at h
    exact .cons h.1 (ih h.2)

lemma partsCutInto_entries {entries : List (List CodePoint × Value)} (hkeys : ∀ entry ∈ entries, Unpaired entry.1)
    (h : ∀ entry ∈ entries, CutInto (textOf (pieces level entry.2)) entry.2.tokens) :
    PartsCutInto (entryPieces level entries) (entryTokens entries) := by
  induction entries with
  | nil => exact .nil
  | cons entry entries ih =>
    rw [List.forall_mem_cons] at h hkeys
    exact .cons (.entry hkeys.1 h.1) (ih hkeys.2 h.2)

/-- The text of a value is cut into its tokens. -/
theorem Value.Fits.cutInto {v : Value} (h : v.Fits Scalar.IsLegible n) (level : ℕ) :
    CutInto (textOf (pieces level v)) v.tokens := by
  induction h generalizing level with
  | scalar hs =>
    rw [pieces, textOf, List.flatMap_singleton, Value.tokens]
    exact .scalar hs
  | list _ ih =>
    rw [pieces, Value.tokens]
    exact .list (partsCutInto_items fun v hv => ih v hv (level + 1))
  | object hlegible _ _ ih =>
    rw [pieces, Value.tokens]
    exact .object (partsCutInto_entries hlegible fun entry hentry => ih entry hentry (level + 1))

end Lexing

section Parsing

variable {depth : ℕ} {a b c : State} {t : Token} {ts ts' : List Token} {frames : List Frame} {n : ℕ} {v : Value}

/-- The tokens take the reading from one state to another. -/
def Runs (depth : ℕ) (ts : List Token) (a b : State) : Prop :=
  ts.foldlM (step depth) a = .ok b

lemma Runs.nil : Runs depth [] a a :=
  rfl

lemma Runs.cons (h : Runs depth ts b c) (ht : step depth a t = .ok b) : Runs depth (t :: ts) a c := by
  rw [Runs, List.foldlM_cons, ht]
  exact h

lemma Runs.append (h : Runs depth ts a b) (h' : Runs depth ts' b c) : Runs depth (ts ++ ts') a c := by
  rw [Runs, List.foldlM_append, h]
  exact h'

lemma step_firstItem (h : t ≠ .closeList) :
    step depth ⟨frames, .firstItem⟩ t = step depth ⟨frames, .value⟩ t :=
  step.eq_2 depth ⟨frames, .firstItem⟩ t rfl fun _ _ ht => h ht

/-- A whole number with not too many digits is read from them. -/
lemma integer_digitsOfNat {m : Int} (h : (Scalar.int m).isWritable = true) :
    integer (m < 0) (Text.digitsOfNat m.natAbs) = .ok (.int m) := by
  have hsize : (if m < 0 then -(m.natAbs : Int) else m.natAbs) = m := by
    split <;> omega
  rw [Scalar.isWritable, decide_eq_true_eq] at h
  rw [integer, if_neg (not_lt.mpr h), Text.natOfDigits_digitsOfNat]
  simp only [decide_eq_true_eq, hsize]

lemma begin_token {s : Scalar} (h : s.isWritable = true) :
    begin depth frames s.token = .ok ⟨frames, .after (.scalar s)⟩ := by
  cases s with
  | int m =>
    rw [Scalar.token, begin, integer_digitsOfNat h]
    rfl
  | null => rfl
  | bool _ => rfl
  | float _ => rfl
  | text _ => rfl

/-- A value does not begin with the end of a list. -/
lemma Value.exists_tokens (v : Value) : ∃ t ts, v.tokens = t :: ts ∧ t ≠ .closeList := by
  cases v with
  | scalar s => exact ⟨s.token, [], by rw [Value.tokens], by cases s <;> simp [Scalar.token]⟩
  | list items => exact ⟨_, _, by rw [Value.tokens], by simp⟩
  | object entries => exact ⟨_, _, by rw [Value.tokens], by simp⟩

lemma Runs.firstItem (h : Runs depth v.tokens ⟨frames, .value⟩ a) : Runs depth v.tokens ⟨frames, .firstItem⟩ a := by
  obtain ⟨t, ts, hv, ht⟩ := v.exists_tokens
  rw [Runs, hv, List.foldlM_cons] at h ⊢
  rwa [step_firstItem ht]

/-- The value is read wherever there is room for its levels. -/
def IsRead (depth n : ℕ) (v : Value) : Prop :=
  ∀ frames : List Frame, frames.length + n ≤ depth → Runs depth v.tokens ⟨frames, .value⟩ ⟨frames, .after v⟩

/-- The items that follow one of a list, up to the end of the list. -/
lemma runs_items {items done : List Value} (h : ∀ v ∈ items, IsRead depth n v)
    (hroom : frames.length + (n + 1) ≤ depth) :
    Runs depth ((itemTokens items).flatMap ([.comma] ++ ·) ++ [.closeList]) ⟨.list done :: frames, .after v⟩
      ⟨frames, .after (.list (done.reverse ++ v :: items))⟩ := by
  induction items generalizing v done with
  | nil =>
    refine Runs.nil.cons ?_
    rw [← List.reverse_cons]
    rfl
  | cons w items ih =>
    rw [List.forall_mem_cons] at h
    have hw := h.1 (.list (v :: done) :: frames) (by rw [List.length_cons]; omega)
    have hrest := hw.append (ih h.2)
    rw [itemTokens, List.flatMap_cons, List.append_assoc, List.append_assoc]
    rw [List.reverse_cons, List.append_assoc] at hrest
    exact hrest.cons rfl

/-- The value under a key is read behind the key. -/
lemma runs_entry (key : List CodePoint) {done : List (List CodePoint × Value)} {place : Next} (h : IsRead depth n v)
    (hroom : frames.length + (n + 1) ≤ depth) (hplace : place = .key done ∨ place = .firstKey done) :
    Runs depth (.scalar (.text key) :: .colon :: v.tokens) ⟨frames, place⟩ ⟨.object done key :: frames, .after v⟩ := by
  have hv := h (.object done key :: frames) (by rw [List.length_cons]; omega)
  have hcolon : Runs depth (.colon :: v.tokens) ⟨frames, .colon done key⟩ ⟨.object done key :: frames, .after v⟩ :=
    hv.cons rfl
  obtain rfl | rfl := hplace
  · exact hcolon.cons rfl
  · exact hcolon.cons rfl

/-- The entries that follow one of an object, up to the end of the object. -/
lemma runs_entries {key : List CodePoint} {entries done : List (List CodePoint × Value)}
    (h : ∀ entry ∈ entries, IsRead depth n entry.2) (hroom : frames.length + (n + 1) ≤ depth) :
    Runs depth ((entryTokens entries).flatMap ([.comma] ++ ·) ++ [.closeObject]) ⟨.object done key :: frames, .after v⟩
      ⟨frames, .after (.object (objectOf (done.reverse ++ (key, v) :: entries)))⟩ := by
  induction entries generalizing key v done with
  | nil =>
    refine Runs.nil.cons ?_
    rw [← List.reverse_cons]
    rfl
  | cons entry entries ih =>
    rw [List.forall_mem_cons] at h
    have hentry := runs_entry entry.1 h.1 hroom (.inl (rfl : Next.key ((key, v) :: done) = _))
    have hrest := hentry.append (ih h.2)
    rw [entryTokens, List.flatMap_cons, List.append_assoc, List.append_assoc]
    rw [List.reverse_cons, List.append_assoc] at hrest
    exact hrest.cons rfl

lemma enter_of_room {nesting : Nesting} (hroom : frames.length + (n + 1) ≤ depth) :
    enter depth frames nesting a = .ok a :=
  if_pos (by omega)

/-- A value with not too many levels is read from its tokens. -/
theorem Value.Fits.isRead (h : v.Fits Scalar.IsReadable n) : IsRead depth n v := by
  induction h with
  | scalar hs =>
    intro frames hroom
    rw [Value.tokens]
    exact Runs.nil.cons (begin_token hs.2)
  | @list n items _ ih =>
    intro frames hroom
    rw [Value.tokens]
    cases items with
    | nil => exact (Runs.nil.cons rfl).cons (enter_of_room hroom)
    | cons v items =>
      rw [List.forall_mem_cons] at ih
      have hfirst := (ih.1 (.list [] :: frames) (by rw [List.length_cons]; omega)).firstItem
      have hall := hfirst.append (runs_items ih.2 hroom)
      rw [itemTokens, intercalate_cons, List.append_assoc]
      exact hall.cons (enter_of_room hroom)
  | @object n entries _ hkeys _ ih =>
    intro frames hroom
    rw [Value.tokens]
    cases entries with
    | nil => exact (Runs.nil.cons rfl).cons (enter_of_room hroom)
    | cons entry entries =>
      rw [List.forall_mem_cons] at ih
      have hfirst := runs_entry entry.1 ih.1 hroom (.inr (rfl : Next.firstKey [] = _))
      have hall := hfirst.append (runs_entries ih.2 hroom)
      -- no key comes twice, so putting the entries together changes nothing
      rw [List.reverse_nil, List.nil_append, objectOf_of_nodup hkeys] at hall
      rw [entryTokens, intercalate_cons, List.append_assoc]
      exact hall.cons (enter_of_room hroom)

end Parsing

variable {depth n : ℕ} {v : Value}

/-- The text of a value is cut into its tokens. -/
theorem tokens_write (h : v.Fits Scalar.IsLegible n) : tokens (Piece.textOf (pieces 0 v)) = v.tokens := by
  have hcut := h.cutInto 0 [] [] ends_nil lexes_nil
  rw [List.append_nil, List.append_nil] at hcut
  exact hcut.tokens

/-- What is written for a value is read as the value. -/
theorem read_write (hv : v.Fits Scalar.IsReadable depth) :
    read depth (String.ofList (Piece.textOf (pieces 0 v))) = .ok v := by
  have h : v.tokens.foldlM (step depth) ⟨[], .value⟩ = .ok ⟨[], .after v⟩ := hv.isRead [] (by simp)
  rw [read, String.toList_ofList, tokens_write (hv.mono fun _ hs => hs.1), ofTokens, h]
  rfl

end Json

end Reckoner
