import Mathlib
import Reckoner.Proofs.Expression.Lexing

/-!
# Identifiers and constants

The identifiers of a text are its lexemes that start with a letter. A constant gives way to its value where it is
a whole identifier, but also where an identifier has its name directly behind a digit, as in `log2e`: the letters
behind the last digit are replaced, and the stem before them stays (`Lexeme.substituted`). If no identifier
hides a constant in this way, constants are replaced exactly where they are identifiers (`Lexeme.flatMap_valued_iff`).

The later stages write no names, so the identifiers of the spelled-out text are what is left of those of the text
(`Chunk.identifiers_spell`).
-/

namespace Reckoner

open Chunk (mark name number)

/-- An identifier has the name of a constant directly behind a digit. -/
def HidesConstant (s : List Char) : Prop :=
  ∃ w d, ∃ k : Constant, s = w ++ d :: k.name.toList ∧ d.isDigit

namespace Constant

/-- The constant that the letters behind the last digit of an identifier name. -/
def atEnd? (s : List Char) : Option Constant :=
  all.find? fun k => s.rtakeWhile Char.isAlpha = k.name.toList

/-- The constant that an identifier names. -/
def ofIdentifier? (s : List Char) : Option Constant :=
  ofName? (String.ofList s)

lemma mem_all (k : Constant) : k ∈ all := by
  cases k <;> decide

lemma isAlpha_name (k : Constant) : ∀ c ∈ k.name.toList, c.isAlpha := by
  cases k <;> exact List.all_eq_true.mp rfl

/-- The value in parentheses is longer than the name. -/
lemma length_name_lt (k : Constant) : k.name.toList.length < k.spelled.length := by
  rw [spelled, text_value]
  cases k <;> decide

lemma ofIdentifier?_name (k : Constant) : ofIdentifier? k.name.toList = some k := by
  rw [ofIdentifier?, String.ofList_toList]
  cases k <;> decide

lemma ofIdentifier?_eq_none {s : List Char} (h : ∀ k : Constant, s ≠ k.name.toList) :
    ofIdentifier? s = none := by
  refine Option.eq_none_iff_forall_ne_some.mpr fun k hk => h k ?_
  have hname : k.name = String.ofList s := by simpa using List.find?_some hk
  rw [hname, String.toList_ofList]

/-- The letters behind the last digit. -/
lemma rtakeWhile_hidden (k : Constant) {w : List Char} {d : Char} (hd : d.isDigit) :
    (w ++ d :: k.name.toList).rtakeWhile Char.isAlpha = k.name.toList := by
  rw [Text.rtakeWhile_append_cons (Chunk.isAlpha_of_isDigit hd)]
  exact List.rtakeWhile_eq_self_iff.mpr k.isAlpha_name

/-- An identifier names a constant, hides one, or does neither. -/
lemma atEnd?_cases {s : List Char} (hs : ∀ c ∈ s, c.isAlphanum) :
    (∃ k : Constant, s = k.name.toList ∧ atEnd? s = some k ∧ s.rdropWhile Char.isAlpha = []) ∨
      (∃ w d, ∃ k : Constant, s = w ++ d :: k.name.toList ∧ d.isDigit ∧ atEnd? s = some k ∧
        s.rdropWhile Char.isAlpha = w ++ [d]) ∨
      (∀ k : Constant, s ≠ k.name.toList) ∧ ¬HidesConstant s ∧ atEnd? s = none := by
  have happend := List.rdropWhile_append_rtakeWhile (p := Char.isAlpha) (l := s)
  cases he : atEnd? s with
  | some k =>
    have hk : s.rtakeWhile Char.isAlpha = k.name.toList := by simpa using List.find?_some he
    rw [hk] at happend
    obtain hw | ⟨w, d, hw⟩ := List.eq_nil_or_concat (s.rdropWhile Char.isAlpha)
    · rw [hw, List.nil_append] at happend
      exact .inl ⟨k, happend.symm, rfl, hw⟩
    · rw [List.concat_eq_append] at hw
      have hlast : d.isAlpha = false := by
        have := List.rdropWhile_last_not Char.isAlpha s (by simp [hw])
        simpa [hw] using this
      have hd : d.isDigit := by
        have := hs d (by rw [← happend, hw]; simp)
        rwa [Char.isAlphanum, hlast, Bool.false_or] at this
      rw [hw, List.append_assoc, List.singleton_append] at happend
      exact .inr (.inl ⟨w, d, k, happend.symm, hd, rfl, hw⟩)
  | none =>
    have hnone (k : Constant) : s.rtakeWhile Char.isAlpha ≠ k.name.toList := by
      simpa using List.find?_eq_none.mp he k k.mem_all
    refine .inr (.inr ⟨?_, ?_, rfl⟩)
    · rintro k rfl
      exact hnone k (List.rtakeWhile_eq_self_iff.mpr k.isAlpha_name)
    · rintro ⟨w, d, k, rfl, hd⟩
      exact hnone k (k.rtakeWhile_hidden hd)

/-- What names a constant hides none. -/
lemma not_hidesConstant_name (k : Constant) : ¬HidesConstant k.name.toList := by
  rintro ⟨w, d, j, e, hd⟩
  have := k.isAlpha_name d (by rw [e]; simp)
  rw [Chunk.isAlpha_of_isDigit hd] at this
  cases this

end Constant

namespace Lexeme

open Constant (atEnd? ofIdentifier?)

/-- The identifier that a lexeme is. -/
def identifier? : Lexeme → Option (List Char)
  | name s => some s
  | _ => none

/-- The identifiers of a text. -/
def identifiers (s : List Char) : List (List Char) :=
  (split s).filterMap identifier?

/-- A lexeme with its value if it names a constant. -/
def valued : Lexeme → List Char
  | name s =>
    match ofIdentifier? s with
    | some k => k.spelled
    | none => s
  | a => a.text

/-- A lexeme with the value of the constant at its end. -/
def substituted : Lexeme → List Char
  | name s =>
    match atEnd? s with
    | some k => s.rdropWhile Char.isAlpha ++ k.spelled
    | none => s
  | a => a.text

/-- What is left of an identifier when the constant at its end is replaced. -/
def remains (s : List Char) : List (List Char) :=
  match atEnd? s with
  | some _ => if s.rdropWhile Char.isAlpha = [] then [] else [s.rdropWhile Char.isAlpha]
  | none => [s]

/-- An identifier has letters and digits only. -/
lemma isAlphanum_of_cuts {s w : List Char} {l : List Lexeme} (h : Cuts s l) (hw : name w ∈ l) :
    ∀ c ∈ w, c.isAlphanum := by
  induction h with
  | nil => cases hw
  | numeral _ _ _ _ ih => exact ih ((List.mem_cons.mp hw).resolve_left (by simp))
  | @name c run rest l hc hrun _ _ ih =>
    obtain e | hw := List.mem_cons.mp hw
    · cases e
      exact List.forall_mem_cons.mpr ⟨by simp [Char.isAlphanum, hc], hrun⟩
    · exact ih hw
  | mark _ _ _ ih => exact ih ((List.mem_cons.mp hw).resolve_left (by simp))

lemma mem_identifiers {s w : List Char} : w ∈ identifiers s ↔ name w ∈ split s := by
  rw [identifiers, List.mem_filterMap]
  constructor
  · rintro ⟨a, ha, e⟩
    cases a with
    | name v =>
      cases e
      exact ha
    | numeral v => cases e
    | mark c => cases e
  · exact fun h => ⟨_, h, rfl⟩

lemma isAlphanum_of_mem_identifiers {s w : List Char} (h : w ∈ identifiers s) : ∀ c ∈ w, c.isAlphanum :=
  isAlphanum_of_cuts (cuts_iff.mpr rfl) (mem_identifiers.mp h)

section Identifier

variable {s : List Char}

/-- The values that take the place of an identifier, and what is left of it. -/
lemma cases_of_isAlphanum (hs : ∀ c ∈ s, c.isAlphanum) :
    (∃ k : Constant, ofIdentifier? s = some k ∧ valued (name s) = k.spelled ∧
        substituted (name s) = k.spelled ∧ remains s = [] ∧ ¬HidesConstant s) ∨
      (∃ w d, ∃ k : Constant, s = w ++ d :: k.name.toList ∧ d.isDigit ∧ ofIdentifier? s = none ∧
        valued (name s) = s ∧ substituted (name s) = w ++ d :: k.spelled ∧ remains s = [w ++ [d]]) ∨
      (ofIdentifier? s = none ∧ valued (name s) = s ∧ substituted (name s) = s ∧ remains s = [s] ∧
        ¬HidesConstant s) := by
  simp only [valued, substituted, remains]
  obtain ⟨k, rfl, he, hw⟩ | ⟨w, d, k, rfl, hd, he, hw⟩ | ⟨hc, hh, he⟩ := Constant.atEnd?_cases hs
  · refine .inl ⟨k, ?_⟩
    simp [k.ofIdentifier?_name, he, hw, k.not_hidesConstant_name]
  · have hnone : ofIdentifier? (w ++ d :: k.name.toList) = none := by
      refine Constant.ofIdentifier?_eq_none fun j e => ?_
      exact j.not_hidesConstant_name ⟨w, d, k, e.symm, hd⟩
    refine .inr (.inl ⟨w, d, k, rfl, hd, ?_⟩)
    simp [hnone, he, hw]
  · refine .inr (.inr ?_)
    simp [Constant.ofIdentifier?_eq_none hc, he, hh]

/-- Replacing whole identifiers only makes no longer text, and a shorter one where a constant is hidden. -/
lemma length_valued (hs : ∀ c ∈ s, c.isAlphanum) :
    (¬HidesConstant s → valued (name s) = substituted (name s)) ∧
      (HidesConstant s → (valued (name s)).length < (substituted (name s)).length) := by
  obtain ⟨k, -, hv, hsub, -, hh⟩ | ⟨w, d, k, e, hd, -, hv, hsub, -⟩ | ⟨-, hv, hsub, -, hh⟩ :=
    cases_of_isAlphanum hs
  · exact ⟨fun _ => by rw [hv, hsub], fun h => absurd h hh⟩
  · refine ⟨fun h => absurd ⟨w, d, k, e, hd⟩ h, fun _ => ?_⟩
    have := k.length_name_lt
    rw [hv, hsub, e]
    simp only [List.length_append, List.length_cons]
    omega
  · exact ⟨fun _ => by rw [hv, hsub], fun h => absurd h hh⟩

end Identifier

/-- Constants are replaced exactly where they are identifiers if and only if no identifier hides one. -/
lemma flatMap_valued_iff {l : List Lexeme} (h : ∀ w, name w ∈ l → ∀ c ∈ w, c.isAlphanum) :
    l.flatMap substituted = l.flatMap valued ↔ ∀ w, name w ∈ l → ¬HidesConstant w := by
  have hle : ∀ a ∈ l, (valued a).length ≤ (substituted a).length := by
    intro a ha
    cases a with
    | name w =>
      obtain ⟨heq, hlt⟩ := length_valued (h w ha)
      by_cases hw : HidesConstant w
      · exact (hlt hw).le
      · rw [heq hw]
    | numeral s => exact le_rfl
    | mark c => exact le_rfl
  constructor
  · intro e w hw hh
    have hsum : (l.map fun a => (valued a).length).sum < (l.map fun a => (substituted a).length).sum :=
      List.sum_lt_sum _ _ hle ⟨_, hw, (length_valued (h w hw)).2 hh⟩
    rw [← List.length_flatMap, ← List.length_flatMap, e] at hsum
    exact lt_irrefl _ hsum
  · intro hh
    refine List.flatMap_congr fun a ha => ?_
    cases a with
    | name w => exact ((length_valued (h w ha)).1 (hh w ha)).symm
    | numeral s => rfl
    | mark c => rfl

end Lexeme

namespace Chunk

open Lexeme (identifier? identifiers substituted remains)
open Expression (insertTimes subtractFromZero opening closings spellChunks expand spell)

/-- What replaces a name in a text. -/
lemma join_replaceAll_name (s : List Char) : join (name s).replaceAll = substituted (.name s) := by
  change join (match Constant.atEnd? s with
    | some k => stem s ++ valueGroup k
    | none => [name s]) = substituted (.name s)
  rw [substituted]
  cases Constant.atEnd? s with
  | some k => simp only [join_append, join_stem, join_valueGroup]
  | none => simp [text]

/-- A numeral that is glued to what follows is in the text as it is. -/
lemma flatMap_glue (d : List Char) (l : List Lexeme) :
    (Lexeme.glue d l).flatMap substituted = d ++ l.flatMap substituted := by
  unfold Lexeme.glue
  split
  · simp [substituted, Lexeme.text]
  · simp [substituted, Lexeme.text]

/-- Replacing constants in the chunks of a text replaces them in its lexemes. -/
lemma flatMap_substituted (l : List Chunk) :
    (lexemes l).flatMap substituted = join (l.flatMap replaceAll) := by
  induction l with
  | nil => rfl
  | cons k l ih =>
    rw [List.flatMap_cons, join_append, ← ih]
    cases k with
    | number d =>
      rw [lexemes, flatMap_glue]
      simp [replaceAll, text]
    | name s => rw [lexemes_name_cons, List.flatMap_cons, join_replaceAll_name]
    | mark c =>
      rw [lexemes_mark_cons, List.flatMap_cons]
      simp [replaceAll, text, substituted, Lexeme.text]

lemma lexemes_split (s : List Char) : lexemes (split s) = Lexeme.split s := by
  rw [← split_join_lexemes (canonical_split s), join_split]

/-- All constants are replaced lexeme by lexeme. -/
theorem substituteAll_eq (s : List Char) :
    Constant.substituteAll s = (Lexeme.split s).flatMap substituted := by
  rw [← lexemes_split, flatMap_substituted, ← split_substituteAll, join_split]

/-- The names among chunks. -/
def names (l : List Chunk) : List (List Char) :=
  l.filterMap fun k => identifier? k.toLexeme

lemma names_append (l m : List Chunk) : names (l ++ m) = names l ++ names m :=
  List.filterMap_append ..

lemma names_cons (k : Chunk) (l : List Chunk) : names (k :: l) = names [k] ++ names l :=
  names_append [k] l

@[simp] lemma names_name_cons (s : List Char) (l : List Chunk) : names (name s :: l) = s :: names l :=
  rfl

lemma names_cons_of_not_isName {k : Chunk} (h : k.isName = false) (l : List Chunk) :
    names (k :: l) = names l := by
  cases k with
  | name s => cases h
  | number d => rfl
  | mark c => rfl

/-- Gluing numerals changes no names. -/
lemma filterMap_lexemes (l : List Chunk) : (lexemes l).filterMap identifier? = names l := by
  induction l with
  | nil => rfl
  | cons k l ih =>
    cases k with
    | name s => rw [lexemes_name_cons, names_name_cons, ← ih]; rfl
    | mark c => rw [lexemes_mark_cons, names_cons_of_not_isName rfl, ← ih]; rfl
    | number d =>
      rw [names_cons_of_not_isName rfl, ← ih, lexemes]
      unfold Lexeme.glue
      split
      · next h => rw [h]; rfl
      · rfl

lemma names_split (s : List Char) : names (split s) = identifiers s := by
  rw [← filterMap_lexemes, lexemes_split, identifiers]

/-- What replaces a name, and what is left of it. -/
lemma replaceAll_cases (s : List Char) :
    ((name s).replaceAll = [name s] ∧ remains s = [s]) ∨
      (∃ k, (name s).replaceAll = valueGroup k ∧ remains s = []) ∨
      ∃ r k, (name s).replaceAll = name r :: valueGroup k ∧ remains s = [r] := by
  have h : (name s).replaceAll = match Constant.atEnd? s with
    | some k => stem s ++ valueGroup k
    | none => [name s] := rfl
  rw [h, remains]
  cases Constant.atEnd? s with
  | none => exact .inl ⟨rfl, rfl⟩
  | some k =>
    simp only [stem]
    split
    · next e => exact .inr (.inl ⟨k, rfl, if_pos e⟩)
    · next e => exact .inr (.inr ⟨_, k, rfl, by rw [e, if_neg (List.cons_ne_nil _ _)]⟩)

/-- What is left of the names among chunks when constants are replaced. -/
lemma names_flatMap_replaceAll (l : List Chunk) :
    names (l.flatMap replaceAll) = (names l).flatMap remains := by
  induction l with
  | nil => rfl
  | cons k l ih =>
    rw [List.flatMap_cons, names_append, ih]
    cases k with
    | name s =>
      rw [names_name_cons, List.flatMap_cons]
      obtain ⟨h, e⟩ | ⟨k, h, e⟩ | ⟨r, k, h, e⟩ := replaceAll_cases s
      · rw [h, e]; rfl
      · rw [h, e]; rfl
      · rw [h, e]; rfl
    | number d => rfl
    | mark c => rfl

lemma names_insertTimes (l : List Chunk) : names (insertTimes l) = names l := by
  fun_induction insertTimes l with
  | case1 j k l _ ih =>
    rw [names_cons, names_cons_of_not_isName (k := mark '*') rfl, ih, ← names_cons]
  | case2 j k l _ ih => rw [names_cons, ih, ← names_cons]
  | case3 l => rfl

/-- Zeros and parentheses are no names. -/
lemma names_subtractFromZero (previous : Option Chunk) (pending : List Nat) (l : List Chunk) :
    names (subtractFromZero previous pending l) = names l := by
  have hopening (p : Option Chunk) (k : Chunk) (r : List Chunk) : names (opening p k r) = [] := by
    unfold opening
    split
    · rfl
    · split <;> rfl
  have hclosings (n : Nat) (p : List Nat) : names (closings n p) = [] := by
    rw [names, List.filterMap_eq_nil_iff]
    intro k hk
    rw [List.eq_of_mem_replicate hk]
    rfl
  induction l generalizing previous pending with
  | nil => rfl
  | cons k l ih =>
    rw [Expression.subtractFromZero_cons, names_append, hopening, List.nil_append, names_cons, names_append,
      hclosings, List.nil_append, ih, ← names_cons]

/-- The identifiers of a spelled-out text are what is left of those of the text. -/
theorem identifiers_spell (raw : List Char) :
    identifiers (spell raw) = (identifiers (expand raw)).flatMap remains := by
  rw [identifiers, spell, split_join_lexemes (Expression.canonical_spellChunks raw), filterMap_lexemes,
    spellChunks_eq, names_subtractFromZero, signed, names_insertTimes, replaced, names_flatMap_replaceAll,
    names_split]

end Chunk

end Reckoner
