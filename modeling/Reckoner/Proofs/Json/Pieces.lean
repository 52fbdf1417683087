import Mathlib
import Reckoner.Proofs.Json.Prefix

/-!
# What has been written

An object is written up to the first integer with too many digits, and even that may break off. What has been written is
read as the object if it is the whole text, and is malformed if it is not (`read_of_begun`): as far as it goes it is the
text of another object, in which something short stands for every integer that cannot be written
(`exists_readable_entries`).
-/

namespace Reckoner

namespace Json

section Pieces

open Piece (textOf begun complete behind)

variable {p q : Piece} {ps qs : List Piece} {parts parts' : List (List Piece)} {before between : List Char}
  {k level n : ℕ}

/-- The second piece can be written, and it is the first one if that can be. -/
def Agree (p q : Piece) : Prop :=
  q.isWritable = true ∧ (p.isWritable = true → p = q)

lemma Agree.refl (h : p.isWritable = true) : Agree p p :=
  ⟨h, fun _ => rfl⟩

/-- What has been written of pieces is the text of the first of those that agree with them. -/
lemma begun_eq_take (h : List.Forall₂ Agree ps qs) :
    begun ps = textOf (qs.take (ps.takeWhile (·.isWritable)).length) := by
  rw [begun]
  induction h with
  | nil => rfl
  | @cons p q ps qs hpq _ ih =>
    by_cases hp : p.isWritable = true
    · rw [List.takeWhile_cons_of_pos hp, List.length_cons, List.take_succ_cons, textOf_cons, textOf_cons, ih, hpq.2 hp]
    · rw [List.takeWhile_cons_of_neg hp]
      rfl

/-- All pieces but some of the last have less text, if the very last one has any. -/
lemma length_textOf_take_lt (hk : k < ps.length) (hlast : ∃ p, ps.getLast? = some p ∧ p.text ≠ []) :
    (textOf (ps.take k)).length < (textOf ps).length := by
  obtain ⟨p, hp, htext⟩ := hlast
  have hdrop : p ∈ ps.drop k := by
    refine List.mem_of_getLast? ?_
    rw [List.getLast?_drop, if_neg (not_le.mpr hk), hp]
  have hsplit : textOf ps = textOf (ps.take k) ++ textOf (ps.drop k) := by
    rw [← textOf_append, List.take_append_drop]
  have hpos : 0 < (textOf (ps.drop k)).length := by
    refine List.length_pos_iff.mpr fun hnil => htext ?_
    exact List.flatMap_eq_nil_iff.mp hnil p hdrop
  rw [hsplit, List.length_append]
  omega

lemma complete_eq_true_iff : complete ps = true ↔ ∀ p ∈ ps, p.isWritable = true :=
  List.all_eq_true

lemma length_takeWhile_lt (h : complete ps = false) : (ps.takeWhile (·.isWritable)).length < ps.length := by
  have hbegins := List.takeWhile_prefix (fun p : Piece => p.isWritable) (l := ps)
  refine lt_of_le_of_ne hbegins.length_le fun hlength => ?_
  have hall := List.takeWhile_eq_self_iff.mp (hbegins.eq_of_length hlength)
  rw [complete_eq_true_iff.mpr hall] at h
  cases h

lemma begun_of_complete (h : complete ps = true) : begun ps = textOf ps := by
  rw [begun, List.takeWhile_eq_self_iff.mpr (complete_eq_true_iff.mp h)]

lemma textOf_isPrefix (h : ps <+: qs) : textOf ps <+: textOf qs := by
  obtain ⟨rest, rfl⟩ := h
  exact ⟨textOf rest, textOf_append.symm⟩

/-- What has been written of pieces is a beginning of the text of those that agree with them. -/
lemma begun_isPrefix (h : List.Forall₂ Agree ps qs) : begun ps <+: textOf qs := by
  rw [begun_eq_take h]
  exact textOf_isPrefix (List.take_prefix _ qs)

/-- If not all pieces can be written, then what has been written is not all of a text. -/
lemma begun_ne (h : List.Forall₂ Agree ps qs) (hc : complete ps = false)
    (hlast : ∃ q, qs.getLast? = some q ∧ q.text ≠ []) : begun ps ≠ textOf qs := by
  have hk := length_takeWhile_lt hc
  rw [h.length_eq] at hk
  intro heq
  have hlt := length_textOf_take_lt hk hlast
  rw [← begun_eq_take h, heq] at hlt
  exact lt_irrefl _ hlt

lemma agree_behind (h : List.Forall₂ Agree ps qs) :
    List.Forall₂ Agree (behind before ps) (behind before qs) := by
  cases h with
  | nil => exact .cons (.refl rfl) .nil
  | cons hpq h =>
    refine .cons ⟨hpq.1, fun hp => ?_⟩ h
    rw [hpq.2 hp]

lemma agree_separated (h : List.Forall₂ (List.Forall₂ Agree) parts parts') :
    List.Forall₂ Agree (separated before between parts) (separated before between parts') := by
  induction h generalizing before with
  | nil => exact .nil
  | cons hpart _ ih => exact List.rel_append (agree_behind hpart) ih

lemma agree_listPieces (h : List.Forall₂ (List.Forall₂ Agree) parts parts') :
    List.Forall₂ Agree (listPieces level parts) (listPieces level parts') := by
  cases h with
  | nil => exact .cons (.refl rfl) .nil
  | cons hpart hparts =>
    rw [listPieces, listPieces, if_neg (by simp), if_neg (by simp)]
    exact .cons (.refl rfl) (List.rel_append (agree_separated (.cons hpart hparts)) (.cons (.refl rfl) .nil))

lemma agree_objectPieces (h : List.Forall₂ (List.Forall₂ Agree) parts parts') :
    List.Forall₂ Agree (objectPieces level parts) (objectPieces level parts') := by
  cases h with
  | nil => exact .cons (.refl rfl) .nil
  | cons hpart hparts =>
    rw [objectPieces, objectPieces, if_neg (by simp), if_neg (by simp)]
    exact .cons (.refl rfl) (List.rel_append (agree_separated (.cons hpart hparts)) (.cons (.refl rfl) .nil))

lemma agree_items {items items' : List Value}
    (h : List.Forall₂ (fun v v' => List.Forall₂ Agree (pieces level v) (pieces level v')) items items') :
    List.Forall₂ (List.Forall₂ Agree) (itemPieces level items) (itemPieces level items') := by
  induction h with
  | nil => exact .nil
  | cons hv _ ih => exact .cons hv ih

lemma agree_entries {entries entries' : List (List CodePoint × Value)}
    (h : List.Forall₂ (fun e e' => e.1 = e'.1 ∧ List.Forall₂ Agree (pieces level e.2) (pieces level e'.2))
      entries entries') :
    List.Forall₂ (List.Forall₂ Agree) (entryPieces level entries) (entryPieces level entries') := by
  induction h with
  | nil => exact .nil
  | @cons e e' entries entries' hentry _ ih =>
    obtain ⟨key, v⟩ := e
    obtain ⟨key', v'⟩ := e'
    obtain ⟨rfl, hv⟩ := hentry
    exact .cons (.cons (.refl rfl) hv) ih

/-- Entries with readable values in place of others are an object under the same keys. -/
lemma exists_readable_entries {entries : List (List CodePoint × Value)} (hkeys : ∀ entry ∈ entries, Unpaired entry.1)
    (hnodup : (entries.map Prod.fst).Nodup)
    (h : ∀ entry ∈ entries, ∃ v', v'.Fits Scalar.IsReadable n ∧
      ∀ level, List.Forall₂ Agree (pieces level entry.2) (pieces level v')) :
    ∃ entries', (Value.object entries').Fits Scalar.IsReadable (n + 1) ∧
      ∀ level, List.Forall₂ Agree (pieces level (.object entries)) (pieces level (.object entries')) := by
  have hall : ∀ entry ∈ entries, ∃ entry' : List CodePoint × Value, entry'.2.Fits Scalar.IsReadable n ∧
      entry.1 = entry'.1 ∧ ∀ level, List.Forall₂ Agree (pieces level entry.2) (pieces level entry'.2) := by
    intro entry hentry
    obtain ⟨v', hfits, hagree⟩ := h entry hentry
    exact ⟨(entry.1, v'), hfits, rfl, hagree⟩
  obtain ⟨entries', hentries⟩ := Outcome.exists_forall₂_iff.mpr hall
  obtain ⟨hfits, hrest⟩ := (List.forall₂_and_left ..).mp hentries.flip
  have hsame : entries'.map Prod.fst = entries.map Prod.fst := by
    rw [← List.forall₂_eq_eq_eq, List.forall₂_map_left_iff, List.forall₂_map_right_iff]
    exact hrest.imp fun _ _ h => h.1.symm
  refine ⟨entries', .object ?_ (hsame ▸ hnodup) hfits, fun level => ?_⟩
  · have hlegible : ∀ key ∈ entries.map Prod.fst, Unpaired key := by simpa using hkeys
    rw [← hsame] at hlegible
    simpa using hlegible
  · rw [pieces, pieces]
    exact agree_objectPieces (agree_entries (hrest.flip.imp fun _ _ h => ⟨h.1, h.2 _⟩))

/-- What is written of a value is the beginning of a readable one. -/
lemma Value.Fits.exists_readable {v : Value} (h : v.Fits Scalar.IsLegible n) :
    ∃ v', v'.Fits Scalar.IsReadable n ∧ ∀ level, List.Forall₂ Agree (pieces level v) (pieces level v') := by
  induction h with
  | @scalar n s hs =>
    by_cases hw : s.isWritable = true
    · exact ⟨.scalar s, .scalar ⟨hs, hw⟩, fun level => .cons (.refl hw) .nil⟩
    · refine ⟨.scalar .null, .scalar ⟨trivial, rfl⟩, fun level => .cons ⟨rfl, fun h => absurd h hw⟩ .nil⟩
  | list _ ih =>
    obtain ⟨items', hitems⟩ := Outcome.exists_forall₂_iff.mpr ih
    obtain ⟨hfits, hrest⟩ := (List.forall₂_and_left ..).mp hitems.flip
    refine ⟨.list items', .list hfits, fun level => ?_⟩
    rw [pieces, pieces]
    exact agree_listPieces (agree_items (hrest.flip.imp fun _ _ h => h _))
  | object hkeys hnodup _ ih =>
    obtain ⟨entries', hfits, hagree⟩ := exists_readable_entries hkeys hnodup ih
    exact ⟨.object entries', hfits, hagree⟩

lemma complete_behind : complete (behind before ps) = complete ps := by
  cases ps <;> rfl

lemma complete_separated : complete (separated before between parts) = parts.all complete := by
  induction parts generalizing before with
  | nil => rfl
  | cons part parts ih =>
    rw [separated, complete, List.all_append, ← complete, ← complete, complete_behind, ih, List.all_cons]

lemma complete_listPieces : complete (listPieces level parts) = parts.all complete := by
  cases parts with
  | nil => rfl
  | cons part parts =>
    rw [listPieces, if_neg (by simp), complete, List.all_cons, List.all_append, ← complete, complete_separated]
    simp

lemma complete_objectPieces : complete (objectPieces level parts) = parts.all complete := by
  cases parts with
  | nil => rfl
  | cons part parts =>
    rw [objectPieces, if_neg (by simp), complete, List.all_cons, List.all_append, ← complete, complete_separated]
    simp

lemma all_itemPieces (items : List Value) :
    (itemPieces level items).all complete = items.all fun v => complete (pieces level v) := by
  induction items with
  | nil => rfl
  | cons v items ih => rw [itemPieces, List.all_cons, List.all_cons, ih]

lemma all_entryPieces (entries : List (List CodePoint × Value)) :
    (entryPieces level entries).all complete = entries.all fun entry => complete (pieces level entry.2) := by
  induction entries with
  | nil => rfl
  | cons entry entries ih =>
    rw [entryPieces, List.all_cons, List.all_cons, ih]
    rfl

/-- A legible value that can be written is readable. -/
lemma Value.Fits.of_complete {v : Value} (h : v.Fits Scalar.IsLegible n) (hc : complete (pieces level v) = true) :
    v.Fits Scalar.IsReadable n := by
  induction h generalizing level with
  | scalar hs =>
    rw [pieces, complete, List.all_cons, Bool.and_eq_true] at hc
    exact .scalar ⟨hs, hc.1⟩
  | list _ ih =>
    rw [pieces, complete_listPieces, all_itemPieces, List.all_eq_true] at hc
    exact .list fun v hv => ih v hv (hc v hv)
  | object hkeys hnodup _ ih =>
    rw [pieces, complete_objectPieces, all_entryPieces, List.all_eq_true] at hc
    exact .object hkeys hnodup fun entry hentry => ih entry hentry (hc entry hentry)

/-- The last piece of an object is not empty. -/
lemma getLast?_objectPieces (level : ℕ) (parts : List (List Piece)) :
    ∃ p, (objectPieces level parts).getLast? = some p ∧ p.text ≠ [] := by
  rw [objectPieces]
  split
  · exact ⟨_, rfl, by simp⟩
  · rw [← List.cons_append, List.getLast?_concat]
    exact ⟨_, rfl, by simp⟩

/-- If the whole text has been written, then all pieces could be. -/
lemma complete_of_isPrefix (hlast : ∃ p, ps.getLast? = some p ∧ p.text ≠ []) (h : textOf ps <+: begun ps) :
    complete ps = true := by
  cases hc : complete ps with
  | true => rfl
  | false =>
    have hbegins := List.takeWhile_prefix (fun p : Piece => p.isWritable) (l := ps)
    have hlt := length_textOf_take_lt (length_takeWhile_lt hc) hlast
    rw [← List.prefix_iff_eq_take.mp hbegins] at hlt
    exact absurd h.length_le (not_le.mpr hlt)

/-- What has been written of an object is read as the object if it is the whole text, and is malformed if it is not. -/
theorem read_of_begun {entries : List (List CodePoint × Value)} {w : List Char}
    (h : (Value.object entries).Fits Scalar.IsLegible n) (hw : w <+: begun (pieces 0 (.object entries))) :
    read n (String.ofList w) =
      if w = textOf (pieces 0 (.object entries)) then .ok (.object entries) else .error .malformed := by
  have hlast : ∃ p, (pieces 0 (.object entries)).getLast? = some p ∧ p.text ≠ [] := getLast?_objectPieces _ _
  split
  · next hall =>
    rw [hall] at hw ⊢
    exact read_write (h.of_complete (complete_of_isPrefix hlast hw))
  · next hne =>
    cases hc : complete (pieces 0 (.object entries)) with
    | true =>
      rw [begun_of_complete hc] at hw
      exact read_of_isPrefix (h.of_complete hc) hw hne
    | false =>
      -- what could be written is the beginning of another object that can be
      cases h with
      | object hkeys hnodup hentries =>
        obtain ⟨entries', hfits, hagree⟩ :=
          exists_readable_entries hkeys hnodup fun entry he => (hentries entry he).exists_readable
        refine read_of_isPrefix hfits (hw.trans (begun_isPrefix (hagree 0))) fun heq => ?_
        have hbegun := begun_ne (hagree 0) hc (getLast?_objectPieces _ _)
        exact hbegun ((begun_isPrefix (hagree 0)).eq_of_length_le (heq ▸ hw.length_le))

end Pieces

end Json

end Reckoner
