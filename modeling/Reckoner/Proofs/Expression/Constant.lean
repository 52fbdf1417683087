import Mathlib
import Reckoner.Expression.Spelling
import Reckoner.Proofs.Expression.Cut

/-!
# Constants in chunks

Constants are replaced in the text, before it is cut. Seen in its chunks the replacement is local: the
letters after the last digit of a name, if they are the name of a constant, give way to a group with
its value, and nothing else changes (`split_substituteAll`). In a name without digits these letters are
the whole name; in a name with digits, such as `log2pi`, a stem is left that calls the group.
-/

namespace Reckoner

namespace Text

variable {p : Char → Bool} {c : Char}

/-- A text is in the class, or has a first character outside it. -/
lemma all_or_first (p : Char → Bool) (l : List Char) :
    (∀ c ∈ l, p c) ∨ ∃ a c b, l = a ++ c :: b ∧ (∀ d ∈ a, p d) ∧ p c = false := by
  have hl := List.takeWhile_append_dropWhile (p := p) (l := l)
  cases hb : l.dropWhile p with
  | nil => exact .inl (List.dropWhile_eq_nil_iff.mp hb)
  | cons c b =>
    rw [hb] at hl
    exact .inr ⟨_, c, b, hl.symm, fun d hd => List.mem_takeWhile_imp hd,
      head?_dropWhile c (by rw [hb]; rfl)⟩

/-- The run at the end of a text starts after the last character outside the class. -/
lemma rtakeWhile_append_cons (h : p c = false) (a l : List Char) :
    (a ++ c :: l).rtakeWhile p = l.rtakeWhile p := by
  have step (m : List Char) : (m ++ c :: a.reverse).takeWhile p = m.takeWhile p := by
    induction m with
    | nil => simp [h]
    | cons d m ih => simp only [List.cons_append, List.takeWhile_cons, ih]
  simp only [List.rtakeWhile, List.reverse_append, List.reverse_cons, List.append_assoc,
    List.singleton_append, step]

lemma rdropWhile_append_cons (h : p c = false) (a l : List Char) :
    (a ++ c :: l).rdropWhile p = a ++ c :: l.rdropWhile p := by
  have step (m : List Char) :
      (m ++ c :: a.reverse).dropWhile p = m.dropWhile p ++ c :: a.reverse := by
    induction m with
    | nil => simp [h]
    | cons d m ih =>
      simp only [List.cons_append, List.dropWhile_cons, ih]
      split <;> rfl
  simp only [List.rdropWhile, List.reverse_append, List.reverse_cons, List.append_assoc,
    List.singleton_append, step, List.reverse_reverse]

end Text

namespace Constant

/-- The numeral of a constant's value. -/
def numeral : Constant → Numeral
  | pi => ⟨"3".toList, "141592653589793".toList⟩
  | e => ⟨"2".toList, "718281828459045".toList⟩
  | phi => ⟨"1".toList, "618033988749895".toList⟩

/-- The text of a constant's value is its numeral. -/
lemma text_value (k : Constant) :
    (Number.text k.value).toList = k.numeral.whole ++ '.' :: k.numeral.fraction := by
  cases k <;> decide +kernel

lemma numeral_value (k : Constant) : k.numeral.value = k.value := by
  cases k <;> decide +kernel

lemma isDigit_numeral (k : Constant) :
    (∀ c ∈ k.numeral.whole, c.isDigit) ∧ ∀ c ∈ k.numeral.fraction, c.isDigit := by
  cases k <;> exact ⟨List.all_eq_true.mp rfl, List.all_eq_true.mp rfl⟩

lemma name_ne_nil (k : Constant) : k.name.toList ≠ [] := by
  cases k <;> decide

lemma startsWithDigit_eq_false_iff {s : List Char} :
    startsWithDigit s = false ↔ ∀ c ∈ s.head?, c.isDigit = false := by
  cases s <;> simp [startsWithDigit]

/-- Text without letters is left alone. -/
lemma substitute_append {k : Constant} {s t : List Char} (h : ∀ c ∈ s, c.isAlpha = false) :
    k.substitute (s ++ t) = s ++ k.substitute t := by
  induction s with
  | nil => rfl
  | cons c s ih =>
    obtain ⟨hc, hs⟩ := List.forall_mem_cons.mp h
    rw [List.cons_append, substitute, if_neg (by simp [hc]), ih hs, List.cons_append]

/-- A run of letters is replaced if it is the name and no letter or digit follows. -/
lemma substitute_letters_append (k : Constant) {l s : List Char} (hn : l ≠ [])
    (hl : ∀ c ∈ l, c.isAlpha) (hs : ∀ c ∈ s.head?, c.isAlpha = false) :
    k.substitute (l ++ s) =
      (if l = k.name.toList ∧ ¬startsWithDigit s then k.spelled else l) ++ k.substitute s := by
  obtain ⟨c, l, rfl⟩ := List.exists_cons_of_ne_nil hn
  obtain ⟨hc, hl⟩ := List.forall_mem_cons.mp hl
  rw [List.cons_append, substitute, if_pos hc]
  simp only [Text.takeWhile_append_eq hl hs, Text.dropWhile_append_eq hl hs]

/-- In a name, only the letters after the last digit can give way to a value. -/
lemma substitute_name_append (k : Constant) (l : List Char) {s : List Char}
    (hl : ∀ c ∈ l, c.isAlphanum) (hs : ∀ c ∈ s.head?, c.isAlphanum = false) :
    k.substitute (l ++ s) = l.rdropWhile Char.isAlpha ++
      (if l.rtakeWhile Char.isAlpha = k.name.toList then k.spelled
        else l.rtakeWhile Char.isAlpha) ++ k.substitute s := by
  -- The recursion goes from digit to digit, over the letters between them.
  induction hn : l.length using Nat.strong_induction_on generalizing l with
  | _ n ih =>
    obtain ha | ⟨a, d, b, rfl, ha, hd⟩ := Text.all_or_first Char.isAlpha l
    · rw [List.rtakeWhile_eq_self_iff.mpr ha, List.rdropWhile_eq_nil_iff.mpr ha, List.nil_append]
      cases l with
      | nil => simp [k.name_ne_nil.symm]
      | cons c l =>
        have hsa : ∀ d ∈ s.head?, d.isAlpha = false ∧ d.isDigit = false := fun d hd => by
          simpa [Char.isAlphanum] using hs d hd
        have hd : startsWithDigit s = false :=
          startsWithDigit_eq_false_iff.mpr fun d hd => (hsa d hd).2
        rw [substitute_letters_append k (by simp) ha fun d hd => (hsa d hd).1]
        simp [hd]
    · have hb := ih b.length (by simp at hn; omega) b
        (fun c hc => hl c (List.mem_append_right a (List.mem_cons_of_mem d hc))) rfl
      have hdd : startsWithDigit (d :: (b ++ s)) := by
        simpa [Char.isAlphanum, hd, startsWithDigit] using hl d (by simp)
      have hds : k.substitute (d :: (b ++ s)) = d :: k.substitute (b ++ s) := by
        rw [substitute, if_neg (by simp [hd])]
      have hads : k.substitute (a ++ d :: (b ++ s)) = a ++ d :: k.substitute (b ++ s) := by
        rw [← hds]
        cases a with
        | nil => rfl
        | cons c a =>
          rw [substitute_letters_append k (by simp) ha (by rintro e ⟨⟩; exact hd)]
          simp [hdd]
      rw [Text.rtakeWhile_append_cons hd, Text.rdropWhile_append_cons hd, List.append_assoc,
        List.cons_append, hads, hb]
      simp only [List.append_assoc, List.cons_append]

end Constant

namespace Chunk

/-- A group that holds the value of a constant. -/
def valueGroup (k : Constant) : List Chunk :=
  [mark '(', number (k.numeral.whole ++ '.' :: k.numeral.fraction), mark ')']

/-- What is left of a name before the letters at its end, if anything is. -/
def stem (letters : List Char) : List Chunk :=
  match letters.rdropWhile Char.isAlpha with
  | [] => []
  | c :: l => [name (c :: l)]

/-- The chunks of a chunk with one constant replaced. -/
def replace (k : Constant) : Chunk → List Chunk
  | name letters =>
    if letters.rtakeWhile Char.isAlpha = k.name.toList then stem letters ++ valueGroup k
    else [name letters]
  | number digits => [number digits]
  | mark c => [mark c]

/-- The chunks of a chunk with all constants replaced. -/
def replaceAll : Chunk → List Chunk
  | name letters =>
    match Constant.all.find? fun k => letters.rtakeWhile Char.isAlpha = k.name.toList with
    | some k => stem letters ++ valueGroup k
    | none => [name letters]
  | number digits => [number digits]
  | mark c => [mark c]

@[simp] lemma join_append (l r : List Chunk) : join (l ++ r) = join l ++ join r := by
  simp [join]

lemma join_stem (letters : List Char) :
    join (stem letters) = letters.rdropWhile Char.isAlpha := by
  unfold stem
  split
  · next h => rw [h, join_nil]
  · next h => rw [h, join_cons, join_nil, List.append_nil, text]

lemma join_valueGroup (k : Constant) : join (valueGroup k) = k.spelled := by
  simp [valueGroup, Constant.spelled, text, k.text_value]

/-- Replacing a constant in a text replaces it in the chunks. -/
lemma substitute_join (k : Constant) {l : List Chunk} (h : Canonical l) :
    k.substitute (join l) = join (l.flatMap (replace k)) := by
  induction l with
  | nil => simp [Constant.substitute]
  | cons c l ih =>
    obtain ⟨hc, hs, hl⟩ := h
    rw [join_cons, List.flatMap_cons, join_append, ← ih hl]
    cases c with
    | name letters =>
      have ha : ∀ d ∈ letters, d.isAlphanum := by
        cases hc with
        | @name d r hd hr =>
          exact List.forall_mem_cons.mpr ⟨by simp [Char.isAlphanum, hd], hr⟩
      rw [text, k.substitute_name_append letters ha hs, replace]
      split
      · rw [join_append, join_stem, join_valueGroup]
      · rw [List.rdropWhile_append_rtakeWhile, join_cons, text, join_nil, List.append_nil]
    | number d =>
      rw [text, Constant.substitute_append]
      · simp [replace, text]
      · intro e he
        have := hc.isPart e he
        cases hea : e.isAlpha with
        | false => rfl
        | true => rw [Lexeme.isPart_of_isAlpha hea] at this; cases this
    | mark d =>
      cases hc with
      | mark ha _ _ =>
        rw [text, Constant.substitute_append (by simpa using ha)]
        simp [replace, text]

lemma proper_open : (mark '(').Proper := .mark rfl rfl (by decide)

lemma proper_close : (mark ')').Proper := .mark rfl rfl (by decide)

lemma canonical_valueGroup_append (k : Constant) {l : List Chunk} (h : Canonical l) :
    Canonical (valueGroup k ++ l) := by
  obtain ⟨hw, hf⟩ := k.isDigit_numeral
  refine .mark_cons proper_open ⟨.point hw hf, ?_, .mark_cons proper_close h⟩
  rintro c ⟨⟩
  exact endsBefore_of_mark proper_close _

/-- The stem of a name is a name with the same first letter. -/
lemma stem_cases {letters : List Char} (h : (name letters).Proper) :
    stem letters = [] ∨ ∃ c l r, letters = c :: l ++ r ∧ stem letters = [name (c :: l)] ∧
      (name (c :: l)).Proper := by
  have hp := List.rdropWhile_prefix Char.isAlpha letters
  unfold stem
  split
  · exact .inl rfl
  · next c l e =>
    rw [e] at hp
    obtain ⟨r, rfl⟩ := hp
    refine .inr ⟨c, l, r, rfl, rfl, ?_⟩
    cases h with
    | name hc hl => exact .name hc fun d hd => hl d (List.mem_append_left r hd)

/-- Replacing a constant keeps a chunk canonical before what follows. -/
lemma canonical_replace_append (k : Constant) {c : Chunk} {l : List Chunk} (hc : c.Proper)
    (hs : ∀ d ∈ (join l).head?, c.EndsBefore d) (hl : Canonical l) :
    Canonical (replace k c ++ l) := by
  match c with
  | .number d => exact ⟨hc, hs, hl⟩
  | .mark d => exact ⟨hc, hs, hl⟩
  | .name letters =>
    rw [replace]
    split
    · have hv := canonical_valueGroup_append k hl
      rw [List.append_assoc]
      obtain e | ⟨d, r, -, -, e, hp⟩ := stem_cases hc
      · rw [e]
        exact hv
      · rw [e]
        refine ⟨hp, ?_, hv⟩
        rintro c ⟨⟩
        exact endsBefore_of_mark proper_open _
    · exact ⟨hc, hs, hl⟩

/-- What ends before a chunk ends before it with a constant replaced. -/
lemma endsBefore_replace (k : Constant) {p c : Chunk} {l : List Chunk} (hc : c.Proper)
    (h : ∀ d ∈ c.text.head?, p.EndsBefore d) :
    ∀ d ∈ (join (replace k c ++ l)).head?, p.EndsBefore d := by
  match c with
  | .number d => rw [replace, List.singleton_append, hc.head?_join]; exact h
  | .mark d => rw [replace, List.singleton_append, hc.head?_join]; exact h
  | .name letters =>
    rw [replace]
    split
    · obtain e | ⟨d, r, s, rfl, e, hp⟩ := stem_cases hc
      · rw [e]
        rintro c ⟨⟩
        exact endsBefore_of_mark proper_open p
      · rw [e, List.append_assoc, List.singleton_append, hp.head?_join]
        exact h
    · rw [List.singleton_append, hc.head?_join]
      exact h

/-- A canonical list stays canonical when a constant is replaced. -/
lemma canonical_flatMap_replace (k : Constant) {l : List Chunk} (h : Canonical l) :
    Canonical (l.flatMap (replace k)) := by
  induction l with
  | nil => trivial
  | cons c l ih =>
    obtain ⟨hc, hs, hl⟩ := h
    refine canonical_replace_append k hc ?_ (ih hl)
    cases l with
    | nil => simp
    | cons d l =>
      rw [hl.1.head?_join] at hs
      exact endsBefore_replace k hl.1 hs

lemma split_substitute (k : Constant) (s : List Char) :
    split (k.substitute s) = (split s).flatMap (replace k) := by
  have h := substitute_join k (canonical_split s)
  rw [join_split] at h
  rw [h, split_join (canonical_flatMap_replace k (canonical_split s))]

/-- No constant is left at the end of a stem. -/
lemma flatMap_replace_stem (k : Constant) (letters : List Char) :
    (stem letters).flatMap (replace k) = stem letters := by
  unfold stem
  split
  · rfl
  · next c l e =>
    have h : (c :: l).rtakeWhile Char.isAlpha = [] := by
      rw [List.rtakeWhile_eq_nil_iff]
      intro hl
      simp only [← e]
      exact List.rdropWhile_last_not Char.isAlpha letters (by rw [e]; exact hl)
    rw [List.flatMap_singleton, replace, h, if_neg (k.name_ne_nil.symm)]

/-- The value of a constant holds no other constant. -/
lemma flatMap_replace_value (j k : Constant) (letters : List Char) :
    (stem letters ++ valueGroup k).flatMap (replace j) = stem letters ++ valueGroup k := by
  rw [List.flatMap_append, flatMap_replace_stem]
  rfl

/-- Replacing all constants is replacing them one after the other. -/
lemma replaceAll_eq (c : Chunk) :
    c.replaceAll = ((c.replace .phi).flatMap (replace .pi)).flatMap (replace .e) := by
  cases c with
  | number d => rfl
  | mark d => rfl
  | name letters =>
    -- The first constant that is found leaves no letters for the others.
    rw [replaceAll, Constant.all]
    by_cases h₁ : letters.rtakeWhile Char.isAlpha = Constant.phi.name.toList
    · rw [List.find?_cons_of_pos (by simpa using h₁), replace, if_pos h₁, flatMap_replace_value,
        flatMap_replace_value]
    · rw [List.find?_cons_of_neg (by simpa using h₁), replace, if_neg h₁, List.flatMap_singleton]
      by_cases h₂ : letters.rtakeWhile Char.isAlpha = Constant.pi.name.toList
      · rw [List.find?_cons_of_pos (by simpa using h₂), replace, if_pos h₂, flatMap_replace_value]
      · rw [List.find?_cons_of_neg (by simpa using h₂), replace, if_neg h₂, List.flatMap_singleton,
          replace]
        by_cases h₃ : letters.rtakeWhile Char.isAlpha = Constant.e.name.toList
        · rw [List.find?_cons_of_pos (by simpa using h₃), if_pos h₃]
        · rw [List.find?_cons_of_neg (by simpa using h₃), if_neg h₃, List.find?_nil]

/-- Cutting a text with all constants replaced. -/
theorem split_substituteAll (s : List Char) :
    split (Constant.substituteAll s) = (split s).flatMap replaceAll := by
  have hs : Constant.substituteAll s =
      Constant.e.substitute (Constant.pi.substitute (Constant.phi.substitute s)) := rfl
  have hc : replaceAll =
      fun c => ((c.replace .phi).flatMap (replace .pi)).flatMap (replace .e) :=
    funext replaceAll_eq
  rw [hs, split_substitute, split_substitute, split_substitute, hc]
  simp only [List.flatMap_assoc]

end Chunk

end Reckoner
