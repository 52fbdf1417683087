import Mathlib
import Reckoner.Equation.Linear
import Reckoner.Proofs.Number.Numeral

/-!
# The language of linear equations

The two sides of an equation as syntax trees, each with the text it writes. A left side is a first term and
any number of others; every term may have a run of signs, and all but the first must have one. A right side is
one literal with at most one sign. The trees carry what makes them well formed, so that every tree has a text,
and reading a text finds its tree if there is one: `terms?_eq_some_iff` and `rightSide_iff`.
-/

namespace Reckoner

namespace Linear

/-- The text of a number and the number. -/
structure Literal where
  text : List Char
  numeral : Numeral
  spells : Numeral.Spells text numeral

/-- A term without its signs: `3`, `x`, `3x` or `3*x`. -/
inductive Body where
  | number (literal : Literal)
  | bare
  | multiple (literal : Literal) (starred : Bool)

/-- A term with the run of signs before it. -/
structure SignedTerm where
  signs : List Char
  body : Body
  areSigns : ∀ c ∈ signs, isSign c

/-- A left side: signs stand between all of its terms. -/
structure LeftSide where
  first : SignedTerm
  others : List SignedTerm
  separated : ∀ t ∈ others, t.signs ≠ []

/-- A right side: a number with at most one sign. -/
structure RightSide where
  sign : Option Char
  literal : Literal
  isSign : ∀ c ∈ sign, Linear.isSign c

def Body.text : Body → List Char
  | .number l => l.text
  | .bare => ['x']
  | .multiple l false => l.text ++ ['x']
  | .multiple l true => l.text ++ ['*', 'x']

def SignedTerm.text (t : SignedTerm) : List Char :=
  t.signs ++ t.body.text

def LeftSide.terms (l : LeftSide) : List SignedTerm :=
  l.first :: l.others

def LeftSide.text (l : LeftSide) : List Char :=
  l.terms.flatMap SignedTerm.text

def RightSide.text (r : RightSide) : List Char :=
  r.sign.toList ++ r.literal.text

/-- What is read of a term without its signs. -/
def Body.parts : Body → Option (List Char) × Bool
  | .number l => (some l.text, false)
  | .bare => (none, true)
  | .multiple l _ => (some l.text, true)

/-- An odd number of minus signs negates. -/
def SignedTerm.negative (t : SignedTerm) : Bool :=
  t.signs.count '-' % 2 = 1

/-- What is read of a term. -/
def SignedTerm.term (t : SignedTerm) : Term :=
  ⟨t.negative, t.body.parts.1, t.body.parts.2⟩

lemma isNumeral_iff {s : List Char} : isNumeral s = true ↔ ∃ l : Literal, l.text = s := by
  rw [isNumeral, Option.isSome_iff_exists]
  constructor
  · rintro ⟨n, hn⟩
    exact ⟨⟨s, n, Numeral.ofChars?_eq_some_iff.mp hn⟩, rfl⟩
  · rintro ⟨l, rfl⟩
    exact ⟨l.numeral, Numeral.ofChars?_eq_some_iff.mpr l.spells⟩

lemma Literal.isNumeral (l : Literal) : Linear.isNumeral l.text = true :=
  isNumeral_iff.mpr ⟨l, rfl⟩

/-- A number is read up to the first character that is no part of one. -/
lemma Literal.split (l : Literal) {t : List Char} (ht : ∀ c ∈ t.head?, Numeral.isPart c = false) :
    (l.text ++ t).takeWhile Numeral.isPart = l.text ∧ (l.text ++ t).dropWhile Numeral.isPart = t :=
  ⟨Text.takeWhile_append_eq l.spells.parts ht, Text.dropWhile_append_eq l.spells.parts ht⟩

/-- A literal begins with a digit or a point. -/
lemma Literal.exists_cons (l : Literal) : ∃ c s, l.text = c :: s ∧ Numeral.isPart c = true := by
  obtain ⟨c, s, hs⟩ := List.exists_cons_of_ne_nil l.spells.ne_nil
  exact ⟨c, s, hs, l.spells.parts c (by rw [hs]; exact List.mem_cons_self)⟩

lemma Literal.append_ne (l : Literal) (t : List Char) : l.text ++ t ≠ ['x'] := by
  intro h
  obtain ⟨c, s, hs, hc⟩ := l.exists_cons
  rw [hs] at h
  obtain rfl : c = 'x' := (List.cons.inj h).1
  exact absurd hc (by decide)

lemma exists_body {s : List Char} {p : Option (List Char) × Bool} (h : body? s = some p) :
    ∃ b : Body, b.text = s ∧ b.parts = p := by
  have hs := List.takeWhile_append_dropWhile (p := Numeral.isPart) (l := s)
  rw [body?] at h
  split at h
  · next hx =>
    cases h
    exact ⟨.bare, hx.symm, rfl⟩
  · split at h
    · next hn =>
      obtain ⟨l, hl⟩ := isNumeral_iff.mp hn
      rw [← hl] at hs h
      split at h
      · next he =>
        rw [List.isEmpty_iff.mp he, List.append_nil] at hs
        cases h
        exact ⟨.number l, hs, rfl⟩
      · split at h
        · next hx =>
          cases h
          obtain hx | hx := hx
          · exact ⟨.multiple l false, by rw [← hs, hx]; rfl, rfl⟩
          · exact ⟨.multiple l true, by rw [← hs, hx]; rfl, rfl⟩
        · cases h
    · cases h

lemma Body.body?_text (b : Body) : body? b.text = some b.parts := by
  cases b with
  | number l =>
    obtain ⟨ht, hd⟩ := l.split (t := []) (by simp)
    have hx := l.append_ne []
    rw [List.append_nil] at ht hd hx
    simp only [body?, Body.text, ht, hd, l.isNumeral, hx, if_false, if_true, List.isEmpty_nil,
      Body.parts]
  | bare => rfl
  | multiple l starred =>
    cases starred with
    | false =>
      obtain ⟨ht, hd⟩ := l.split (t := ['x']) (by simp; decide)
      simp [body?, Body.text, ht, hd, l.isNumeral, l.append_ne, Body.parts]
    | true =>
      obtain ⟨ht, hd⟩ := l.split (t := ['*', 'x']) (by simp; decide)
      simp [body?, Body.text, ht, hd, l.isNumeral, l.append_ne, Body.parts]

lemma isSign_of_part {c : Char} (h : Numeral.isPart c) : isSign c = false := by
  rw [isSign, Bool.or_eq_false_iff]
  constructor
  · rw [decide_eq_false_iff_not]
    rintro rfl
    exact absurd h (by decide)
  · rw [decide_eq_false_iff_not]
    rintro rfl
    exact absurd h (by decide)

lemma Body.text_ne_nil (b : Body) : b.text ≠ [] := by
  cases b with
  | number l => exact l.spells.ne_nil
  | bare => exact List.cons_ne_nil _ _
  | multiple l starred => cases starred <;> simp [Body.text]

/-- A term has no signs inside. -/
lemma Body.isSign_text (b : Body) : ∀ c ∈ b.text, isSign c = false := by
  have literal (l : Literal) : ∀ c ∈ l.text, isSign c = false :=
    fun c hc => isSign_of_part (l.spells.parts c hc)
  cases b with
  | number l => exact literal l
  | bare => simp [Body.text, isSign]
  | multiple l starred =>
    cases starred with
    | false =>
      rw [Body.text, List.forall_mem_append]
      exact ⟨literal l, by simp [isSign]⟩
    | true =>
      rw [Body.text, List.forall_mem_append]
      exact ⟨literal l, by simp [isSign]⟩

lemma Body.exists_cons (b : Body) : ∃ c s, b.text = c :: s ∧ isSign c = false := by
  obtain ⟨c, s, hs⟩ := List.exists_cons_of_ne_nil b.text_ne_nil
  exact ⟨c, s, hs, b.isSign_text c (by rw [hs]; exact List.mem_cons_self)⟩

/-- Where terms with signs begin, there is a sign. -/
lemma head?_flatMap {ts : List SignedTerm} (h : ∀ t ∈ ts, t.signs ≠ []) :
    ∀ c ∈ (ts.flatMap SignedTerm.text).head?, isSign c = true := by
  cases ts with
  | nil => simp
  | cons t ts =>
    obtain ⟨c, signs, hs⟩ := List.exists_cons_of_ne_nil (h t List.mem_cons_self)
    intro d hd
    have hc := t.areSigns c (by rw [hs]; exact List.mem_cons_self)
    simp only [List.flatMap_cons, SignedTerm.text, hs, List.cons_append, List.head?_cons,
      Option.mem_some_iff] at hd
    exact hd ▸ hc

/-- One term is read from its signs to the next sign. -/
lemma signedTerms?_text (t : SignedTerm) (hne : t.signs ≠ []) {rest : List Char}
    (hrest : ∀ c ∈ rest.head?, isSign c = true) :
    signedTerms? (t.text ++ rest) = (signedTerms? rest).map (t.term :: ·) := by
  obtain ⟨c, signs, hs⟩ := List.exists_cons_of_ne_nil hne
  have hsigns := t.areSigns
  rw [hs] at hsigns
  obtain ⟨hc, hsigns⟩ := List.forall_mem_cons.mp hsigns
  have hbody : ∀ d ∈ (t.body.text ++ rest).head?, isSign d = false := by
    obtain ⟨d, s, hd, hsign⟩ := t.body.exists_cons
    intro d' hd'
    rw [hd, List.cons_append, List.head?_cons, Option.mem_some_iff] at hd'
    exact hd' ▸ hsign
  have hinside : ∀ d ∈ t.body.text, (!isSign d) = true := by
    intro d hd
    rw [t.body.isSign_text d hd]
    rfl
  have hnext : ∀ d ∈ rest.head?, (!isSign d) = false := by
    intro d hd
    rw [hrest d hd]
    rfl
  rw [SignedTerm.text, hs, List.append_assoc, List.cons_append, signedTerms?, if_pos hc]
  simp only [Text.takeWhile_append_eq hsigns hbody, Text.dropWhile_append_eq hsigns hbody,
    Text.takeWhile_append_eq hinside hnext, Text.dropWhile_append_eq hinside hnext, t.body.body?_text,
    Option.bind_eq_bind, Option.bind_some, SignedTerm.term, SignedTerm.negative, hs]
  cases signedTerms? rest <;> rfl

/-- Reading a text in which every term has signs. -/
theorem signedTerms?_eq_some_iff {s : List Char} {terms : List Term} :
    signedTerms? s = some terms ↔ ∃ ts : List SignedTerm, (∀ t ∈ ts, t.signs ≠ []) ∧
      ts.flatMap SignedTerm.text = s ∧ ts.map SignedTerm.term = terms := by
  constructor
  · intro h
    induction s using signedTerms?.induct generalizing terms with
    | case1 =>
      rw [signedTerms?] at h
      cases h
      exact ⟨[], by simp, rfl, rfl⟩
    | case2 c rest hc after =>
      rename_i ih
      rw [signedTerms?, if_pos hc] at h
      obtain ⟨p, hbody, h⟩ := Option.bind_eq_some_iff.mp h
      obtain ⟨terms', hterms, h⟩ := Option.bind_eq_some_iff.mp h
      cases h
      obtain ⟨b, hb, rfl⟩ := exists_body hbody
      obtain ⟨ts, hne, htext, rfl⟩ := ih hterms
      have hsigns : ∀ d ∈ c :: rest.takeWhile isSign, isSign d :=
        List.forall_mem_cons.mpr ⟨hc, fun d hd => List.mem_takeWhile_imp hd⟩
      refine ⟨⟨_, b, hsigns⟩ :: ts, List.forall_mem_cons.mpr ⟨List.cons_ne_nil _ _, hne⟩, ?_, rfl⟩
      rw [List.flatMap_cons, htext, SignedTerm.text, hb, List.append_assoc,
        List.takeWhile_append_dropWhile, List.cons_append, List.takeWhile_append_dropWhile]
    | case3 c rest hc =>
      rw [signedTerms?, if_neg hc] at h
      cases h
  · rintro ⟨ts, hne, rfl, rfl⟩
    induction ts with
    | nil => rw [List.flatMap_nil, signedTerms?, List.map_nil]
    | cons t ts ih =>
      obtain ⟨ht, hts⟩ := List.forall_mem_cons.mp hne
      rw [List.flatMap_cons, signedTerms?_text t ht (head?_flatMap hts), ih hts, Option.map_some,
        List.map_cons]

/-- A plus sign more. -/
def SignedTerm.plus (t : SignedTerm) : SignedTerm :=
  ⟨'+' :: t.signs, t.body, List.forall_mem_cons.mpr ⟨rfl, t.areSigns⟩⟩

lemma SignedTerm.plus_text (t : SignedTerm) : t.plus.text = '+' :: t.text :=
  rfl

lemma SignedTerm.plus_term (t : SignedTerm) : t.plus.term = t.term := by
  have hcount : t.plus.signs.count '-' = t.signs.count '-' := List.count_cons_of_ne (by decide)
  rw [SignedTerm.term, SignedTerm.negative, hcount]
  rfl

lemma exists_leftSide {s : List Char} {terms : List Term} (h : terms? s = some terms) :
    ∃ l : LeftSide, l.text = s ∧ l.terms.map SignedTerm.term = terms := by
  cases s with
  | nil => cases h
  | cons c rest =>
    obtain ⟨ts, hne, htext, hterms⟩ := signedTerms?_eq_some_iff.mp h
    cases ts with
    | nil =>
      split at htext
      · cases htext
      · cases htext
    | cons t ts =>
      obtain ⟨ht, hts⟩ := List.forall_mem_cons.mp hne
      split at htext
      · exact ⟨⟨t, ts, hts⟩, htext, hterms⟩
      · obtain ⟨d, signs, hs⟩ := List.exists_cons_of_ne_nil ht
        obtain ⟨-, hsigns⟩ := List.forall_mem_cons.mp (hs ▸ t.areSigns)
        let first : SignedTerm := ⟨signs, t.body, hsigns⟩
        rw [List.flatMap_cons, SignedTerm.text, hs] at htext
        obtain ⟨hd, hrest⟩ := List.cons.inj htext
        subst hd
        have hplus : t = first.plus := by
          cases t
          cases hs
          rfl
        refine ⟨⟨first, ts, hts⟩, hrest, ?_⟩
        rw [← hterms, hplus, List.map_cons, SignedTerm.plus_term]
        rfl

/-- A left side begins with a sign if its first term has one. -/
lemma LeftSide.exists_cons (l : LeftSide) :
    ∃ c s, l.text = c :: s ∧ (isSign c = true → l.first.signs ≠ []) := by
  obtain ⟨⟨signs, body, hsigns⟩, others, hsep⟩ := l
  cases signs with
  | nil =>
    obtain ⟨c, s, hs, hc⟩ := body.exists_cons
    refine ⟨c, s ++ others.flatMap SignedTerm.text, ?_, ?_⟩
    · change body.text ++ others.flatMap SignedTerm.text = _
      rw [hs, List.cons_append]
    · intro h
      rw [hc] at h
      cases h
  | cons c signs => exact ⟨c, _, rfl, fun _ => List.cons_ne_nil _ _⟩

lemma LeftSide.terms?_text (l : LeftSide) : terms? l.text = some (l.terms.map SignedTerm.term) := by
  obtain ⟨c, s, htext, hsigns⟩ := l.exists_cons
  obtain ⟨first, others, hsep⟩ := l
  rw [htext, terms?]
  apply signedTerms?_eq_some_iff.mpr
  split
  · next hc => exact ⟨first :: others, List.forall_mem_cons.mpr ⟨hsigns hc, hsep⟩, htext, rfl⟩
  · refine ⟨first.plus :: others, List.forall_mem_cons.mpr ⟨List.cons_ne_nil _ _, hsep⟩, ?_, ?_⟩
    · rw [List.flatMap_cons, SignedTerm.plus_text, List.cons_append, ← List.flatMap_cons]
      exact congrArg _ htext
    · rw [List.map_cons, SignedTerm.plus_term]
      rfl

/-- Reading a left side: a first term without signs counts as one with a plus. -/
theorem terms?_eq_some_iff {s : List Char} {terms : List Term} :
    terms? s = some terms ↔ ∃ l : LeftSide, l.text = s ∧ l.terms.map SignedTerm.term = terms := by
  constructor
  · exact exists_leftSide
  · rintro ⟨l, rfl, rfl⟩
    exact l.terms?_text

/-- The number of a right side is what follows its sign. -/
lemma RightSide.unsigned_text (r : RightSide) : unsigned r.text = r.literal.text := by
  obtain ⟨sign, l, hs⟩ := r
  cases sign with
  | some c => exact if_pos (hs c rfl)
  | none =>
    obtain ⟨c, rest, hc, hpart⟩ := l.exists_cons
    change unsigned l.text = l.text
    rw [hc, unsigned, if_neg]
    rw [isSign_of_part hpart]
    exact Bool.false_ne_true

/-- Reading a right side. -/
theorem rightSide_iff {s : List Char} :
    isNumeral (unsigned s) = true ↔ ∃ r : RightSide, r.text = s := by
  constructor
  · intro h
    obtain ⟨l, hl⟩ := isNumeral_iff.mp h
    cases s with
    | nil => exact ⟨⟨none, l, by simp⟩, hl⟩
    | cons c rest =>
      rw [unsigned] at hl
      split at hl
      · next hc => exact ⟨⟨some c, l, by simpa using hc⟩, congrArg (c :: ·) hl⟩
      · exact ⟨⟨none, l, by simp⟩, hl⟩
  · rintro ⟨r, rfl⟩
    rw [r.unsigned_text]
    exact r.literal.isNumeral

end Linear

end Reckoner
