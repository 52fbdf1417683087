import Mathlib
import Reckoner.Proofs.Equation.Roots
import Reckoner.Proofs.Number.Typed

/-!
# The texts of a quadratic solution

A factored form can be read: `read?` cuts it at its brackets, and types in what stands before and between them. What
it reads are the leading coefficient and the roots, whether a factor has blanks or not, whether the coefficient is
left out, and whatever signs and exponents the numbers have (`exists_read?`). The derivation names the case of the
discriminant, and then ends one line in each root (`exists_steps`).
-/

namespace Reckoner

namespace Quadratic

open Number (display typed? shownChars mem_display)

/-- What a factored form says of a quadratic: that there are no real factors, or a leading coefficient and roots. -/
inductive Reading where
  | irreducible
  | square (leading root : Float)
  | product (leading first second : Float)

namespace Reading

def roots : Reading → List Float
  | irreducible => []
  | square _ r => [r]
  | product _ r₁ r₂ => [r₁, r₂]

def leading? : Reading → Option Float
  | irreducible => none
  | square a _ => some a
  | product a _ _ => some a

end Reading

/-- The text before the first opening bracket, the text up to its closing bracket, and what stands behind it. -/
def cut? (s : List Char) : Option (List Char × List Char × List Char) :=
  match s.dropWhile (· ≠ '(') with
  | [] => none
  | _ :: inner =>
    match inner.dropWhile (· ≠ ')') with
    | [] => none
    | _ :: rest => some (s.takeWhile (· ≠ '('), inner.takeWhile (· ≠ ')'), rest)

/-- The root of a factor, which is what is taken away from the variable. -/
def readRoot? (s : List Char) : Option Float :=
  match Text.dropBlanks s with
  | 'x' :: '-' :: size => typed? size
  | 'x' :: '+' :: size => (typed? size).map (-·)
  | _ => none

/-- The number before the factors. None written is one. -/
def readLeading? (s : List Char) : Option Float :=
  if s.isEmpty then some 1 else typed? s

/-- Reads a factored form. -/
def read? (s : List Char) : Option Reading :=
  if s = "Cannot factor (no real solutions)".toList then some .irreducible
  else do
    let (before, factor, rest) ← cut? s
    let leading ← readLeading? before
    let first ← readRoot? factor
    if rest = ['²'] then return .square leading first
    else
      let (between, factor, rest) ← cut? rest
      let second ← readRoot? factor
      if between = [] ∧ rest = [] then return .product leading first second else none

/-- The number at the end of a line. -/
def endValue? (line : String) : Option Float :=
  typed? (line.toList.rtakeWhile (· ≠ ' '))

/-- The line of a derivation that names the case, for a discriminant and a number of roots. -/
inductive CaseLine (discriminant : Float) : ℕ → String → Prop
  | none :
    discriminant < 0 →
    CaseLine discriminant 0 "Discriminant < 0: No real solutions"
  | one :
    discriminant == 0 →
    CaseLine discriminant 1 "Discriminant = 0: One solution"
  | two :
    0 < discriminant →
    CaseLine discriminant 2 "Discriminant > 0: Two solutions"

section Factors

variable {x : Float} {before inside rest : List Char} {c : Char}

lemma not_mem_display (h : c ∉ shownChars) : c ∉ (display x).toList :=
  fun hc => h (mem_display hc)

/-- A text is cut where a character first occurs. -/
lemma takeWhile_ne_append (h : c ∉ before) : (before ++ c :: rest).takeWhile (· ≠ c) = before := by
  apply Text.takeWhile_append_eq
  · intro d hd
    rw [decide_eq_true_iff]
    rintro rfl
    exact h hd
  · rintro d ⟨⟩
    simp

lemma dropWhile_ne_append (h : c ∉ before) : (before ++ c :: rest).dropWhile (· ≠ c) = c :: rest := by
  apply Text.dropWhile_append_eq
  · intro d hd
    rw [decide_eq_true_iff]
    rintro rfl
    exact h hd
  · rintro d ⟨⟩
    simp

lemma cut?_group (hb : '(' ∉ before) (hi : ')' ∉ inside) :
    cut? (before ++ '(' :: (inside ++ ')' :: rest)) = some (before, inside, rest) := by
  rw [cut?, dropWhile_ne_append hb, takeWhile_ne_append hb]
  simp only [dropWhile_ne_append hi, takeWhile_ne_append hi]

lemma toList_rootFactor (gap : String) (root : Float) :
    (rootFactor gap root).toList =
      'x' :: (gap.toList ++ (if root < 0 then '+' else '-') :: (gap.toList ++ (display root.abs).toList)) := by
  rw [rootFactor]
  split <;> simp [String.toList_append]

lemma dropBlanks_of_blank (h : ∀ c ∈ before, Text.isBlank c = true) : Text.dropBlanks before = [] := by
  rw [Text.dropBlanks, List.filter_eq_nil_iff]
  intro c hc
  simp [h c hc]

lemma dropBlanks_display : Text.dropBlanks (display x).toList = (display x).toList := by
  rw [Text.dropBlanks, List.filter_eq_self]
  intro c hc
  rw [(Number.plain_of_shown (mem_display hc)).1]
  rfl

/-- The root of a factor is read from it, with blanks around the sign or without. -/
theorem exists_readRoot? {gap : String} (hgap : ∀ c ∈ gap.toList, Text.isBlank c = true) (hx : x.isNaN = false) :
    ∃ y, readRoot? (rootFactor gap x).toList = some y ∧ y == x := by
  obtain ⟨y, hy, hbeq⟩ := Number.exists_typed_display ((Number.isNaN_abs x).trans hx)
  have hdrop : Text.dropBlanks (rootFactor gap x).toList =
      'x' :: (if x < 0 then '+' else '-') :: (display x.abs).toList := by
    rw [toList_rootFactor, Text.dropBlanks_cons (by decide), Text.dropBlanks_append, dropBlanks_of_blank hgap,
      List.nil_append, Text.dropBlanks_cons (by split <;> decide), Text.dropBlanks_append, dropBlanks_of_blank hgap,
      List.nil_append, dropBlanks_display]
  refine ⟨if x < 0 then -y else y, ?_, Number.restore_beq hx hbeq⟩
  rw [readRoot?, hdrop]
  by_cases hneg : x < 0
  · rw [if_pos hneg, if_pos hneg]
    exact congrArg (Option.map (-·)) hy
  · rw [if_neg hneg, if_neg hneg]
    exact hy

lemma not_mem_rootFactor {gap : String} (hgap : ∀ c ∈ gap.toList, Text.isBlank c = true) :
    ')' ∉ (rootFactor gap x).toList := by
  have hblank : ')' ∉ gap.toList := fun h => absurd (hgap _ h) (by decide)
  have hdisplay : ')' ∉ (display x.abs).toList := not_mem_display (by decide)
  have hsign : ')' ≠ if x < 0 then '+' else '-' := by split <;> decide
  rw [toList_rootFactor]
  simp only [List.mem_cons, List.mem_append, not_or]
  exact ⟨by decide, hblank, hsign, hblank, hdisplay⟩

lemma exists_readLeading? (hx : x.isNaN = false) : ∃ y, readLeading? (display x).toList = some y ∧ y == x := by
  obtain ⟨y, hy, hbeq⟩ := Number.exists_typed_display hx
  refine ⟨y, ?_, hbeq⟩
  rw [readLeading?, if_neg, hy]
  intro hempty
  rw [List.isEmpty_iff.mp hempty] at hy
  cases hy

/-- What begins with a shown number, or with a factor, does not say that there are no factors. -/
lemma ne_irreducible (hb : ∀ c ∈ before, c ∈ shownChars) :
    before ++ '(' :: rest ≠ "Cannot factor (no real solutions)".toList := by
  cases before with
  | nil =>
    intro h
    exact absurd (List.cons.inj h).1 (by decide)
  | cons c before =>
    intro h
    obtain rfl : c = 'C' := (List.cons.inj h).1
    exact absurd (hb _ List.mem_cons_self) (by decide)

end Factors

section Forms

variable {a r r₁ r₂ : Float} {before : List Char}

lemma read?_square {y z : Float} (hb : ∀ c ∈ before, c ∈ shownChars) (hleading : readLeading? before = some y)
    {factor : List Char} (hf : ')' ∉ factor) (hfactor : readRoot? factor = some z) :
    read? (before ++ '(' :: (factor ++ ')' :: ['²'])) = some (.square y z) := by
  have hopen : '(' ∉ before := fun h => absurd (hb _ h) (by decide)
  rw [read?, if_neg (ne_irreducible hb), cut?_group hopen hf]
  simp only [Option.bind_eq_bind, Option.bind_some, hleading, hfactor, if_pos]
  rfl

lemma read?_product {y z₁ z₂ : Float} (hb : ∀ c ∈ before, c ∈ shownChars) (hleading : readLeading? before = some y)
    {first second : List Char} (hf : ')' ∉ first) (hfirst : readRoot? first = some z₁) (hs : ')' ∉ second)
    (hsecond : readRoot? second = some z₂) :
    read? (before ++ '(' :: (first ++ ')' :: ('(' :: (second ++ [')'])))) = some (.product y z₁ z₂) := by
  have hopen : '(' ∉ before := fun h => absurd (hb _ h) (by decide)
  have hnext : cut? ('(' :: (second ++ [')'])) = some ([], second, []) := @cut?_group [] second [] nofun hs
  rw [read?, if_neg (ne_irreducible hb), cut?_group hopen hf]
  simp only [Option.bind_eq_bind, Option.bind_some, hleading, hfirst]
  rw [if_neg (by simp), hnext]
  simp only [Option.bind_some, hsecond]
  rfl

/-- The leading coefficient is written or, if it is one, left out. -/
lemma exists_leading (ha : a.isNaN = false) :
    (∀ c ∈ if a == 1 then [] else (display a).toList, c ∈ shownChars) ∧
      ∃ y, readLeading? (if a == 1 then [] else (display a).toList) = some y ∧ y == a := by
  split
  · next hone =>
    have hvalue := Number.toRat?_of_beq hone Number.toRat?_one
    exact ⟨List.forall_mem_nil _, 1, rfl, Number.beq_of_toRat? Number.toRat?_one hvalue⟩
  · exact ⟨fun c => mem_display, exists_readLeading? ha⟩

lemma toList_square : (factoredForm a [r]).toList =
    (display a).toList ++ '(' :: ((rootFactor " " r).toList ++ ')' :: ['²']) := by
  simp [factoredForm, String.toList_append]

lemma toList_product : (factoredForm a [r₁, r₂]).toList =
    (if a == 1 then [] else (display a).toList) ++
      '(' :: ((rootFactor "" r₁).toList ++ ')' :: ('(' :: ((rootFactor "" r₂).toList ++ [')']))) := by
  rw [factoredForm]
  · split <;> simp [String.toList_append, String.join_cons]
  · nofun
  · nofun

/-- Reading a factored form gives back what it was written for. -/
theorem exists_read? {roots : List Float} (ha : a.isNaN = false) (hr : ∀ r ∈ roots, r.isNaN = false)
    (hle : roots.length ≤ 2) :
    ∃ reading, read? (factoredForm a roots).toList = some reading ∧
      List.Forall₂ (fun x y => x == y) reading.roots roots ∧
      (roots ≠ [] → ∃ y, reading.leading? = some y ∧ y == a) := by
  have hblank : ∀ c ∈ " ".toList, Text.isBlank c = true := List.forall_mem_singleton.mpr (by decide)
  have hempty : ∀ c ∈ "".toList, Text.isBlank c = true := List.forall_mem_nil _
  match roots with
  | [] => exact ⟨.irreducible, if_pos rfl, .nil, fun h => absurd rfl h⟩
  | [r] =>
    obtain ⟨y, hy, hya⟩ := exists_readLeading? ha
    obtain ⟨z, hz, hzr⟩ := exists_readRoot? hblank (hr r List.mem_cons_self)
    refine ⟨.square y z, ?_, .cons hzr .nil, fun _ => ⟨y, rfl, hya⟩⟩
    rw [toList_square]
    exact read?_square (fun c => mem_display) hy (not_mem_rootFactor hblank) hz
  | [r₁, r₂] =>
    rw [List.forall_mem_cons, List.forall_mem_singleton] at hr
    obtain ⟨hshown, y, hy, hya⟩ := exists_leading ha
    obtain ⟨z₁, hz₁, hzr₁⟩ := exists_readRoot? hempty hr.1
    obtain ⟨z₂, hz₂, hzr₂⟩ := exists_readRoot? hempty hr.2
    refine ⟨.product y z₁ z₂, ?_, .cons hzr₁ (.cons hzr₂ .nil), fun _ => ⟨y, rfl, hya⟩⟩
    rw [toList_product]
    exact read?_product hshown hy (not_mem_rootFactor hempty) hz₁ (not_mem_rootFactor hempty) hz₂
  | _ :: _ :: _ :: _ => exact absurd hle (by simp)

end Forms

section Derivation

variable {q : Coefficients} {a b c d : ℚ} {r : Float}

lemma exists_endValue? (p : String) (hr : r.isNaN = false) :
    ∃ y, endValue? (p ++ ") = " ++ display r) = some y ∧ y == r := by
  have hblank : ' ' ∉ (display r).toList.reverse := fun h => not_mem_display (by decide) (List.mem_reverse.mp h)
  have hline : (p ++ ") = " ++ display r).toList.reverse =
      (display r).toList.reverse ++ ' ' :: (p ++ ") =").toList.reverse := by
    simp [String.toList_append]
  rw [endValue?, List.rtakeWhile, hline, takeWhile_ne_append hblank, List.reverse_reverse]
  exact Number.exists_typed_display hr

/-- The derivation says how many roots there are and ends in them. -/
theorem exists_steps (h : Numbers q a b c d) {roots : List Float} (hroots : RootsFor q d roots) :
    ∃ first second line rootLines, steps q roots = first :: second :: line :: rootLines ∧
      CaseLine q.discriminant roots.length line ∧
      List.Forall₂ (fun line r => ∃ y, endValue? line = some y ∧ y == r) rootLines roots := by
  have hnan := h.isNaN hroots
  cases hroots with
  | none hd => exact ⟨_, _, _, [], rfl, .none (h.discriminant_lt_iff.mpr hd), .nil⟩
  | one hd =>
    have hzero : q.discriminant == 0 := by rw [Number.beq_eq h.discriminant Number.toRat?_zero, decide_eq_true hd]
    rw [List.forall_mem_singleton] at hnan
    exact ⟨_, _, _, _, rfl, .one hzero, .cons (exists_endValue? _ hnan) .nil⟩
  | two hd =>
    have hpos : 0 < q.discriminant := (Number.lt_iff Number.toRat?_zero h.discriminant).mpr hd
    rw [List.forall_mem_cons, List.forall_mem_singleton] at hnan
    exact ⟨_, _, _, _, rfl, .two hpos, .cons (exists_endValue? _ hnan.1) (.cons (exists_endValue? _ hnan.2) .nil)⟩

end Derivation

/-- The factored form by itself is the one of the solution. -/
lemma factor_eq (q : Coefficients) : factor q = (solve q).map Solution.factoredForm := by
  rw [factor, solve]
  cases q.check with
  | error cause => rfl
  | ok _ => cases q.roots <;> rfl

/-- The texts of a solution say what its numbers are. Reading the factored form, which is also that of factoring
alone, gives the roots in order and the leading coefficient. The derivation names the case of the discriminant in its
third line, and then ends one line in each root. -/
theorem texts_of_solve {q : Coefficients} {solution : Solution} (h : solve q = .ok solution) :
    factor q = .ok solution.factoredForm ∧
    (∃ reading, read? solution.factoredForm.toList = some reading ∧
      List.Forall₂ (fun x y => x == y) reading.roots solution.roots ∧
      (solution.roots ≠ [] → ∃ y, reading.leading? = some y ∧ y == q.a)) ∧
    ∃ first second line rootLines, solution.steps = first :: second :: line :: rootLines ∧
      CaseLine solution.discriminant solution.roots.length line ∧
      List.Forall₂ (fun line r => ∃ y, endValue? line = some y ∧ y == r) rootLines solution.roots := by
  have hfactor : factor q = .ok solution.factoredForm := by
    rw [factor_eq, h]
    rfl
  obtain ⟨a, b, c, d, roots, hn, hroots, rfl⟩ := solve_eq_ok_iff.mp h
  have ha := (Number.not_isNaN_of_toRat? hn.leading).1
  exact ⟨hfactor, exists_read? ha (hn.isNaN hroots) hroots.length_le, exists_steps hn hroots⟩

/-- The factored form of 2x^2 - 2x - 12 is read as the two roots of opposite signs. -/
theorem texts_of_solve_signs : ∃ solution reading, solve ⟨2, -2, -12⟩ = .ok solution ∧
    read? solution.factoredForm.toList = some reading ∧ ∃ r₁ r₂, solution.roots = [r₁, r₂] ∧ 0 < r₁ ∧ r₂ < 0 ∧
      List.Forall₂ (fun x y => x == y) reading.roots [r₁, r₂] := by
  have hn : Numbers ⟨2, -2, -12⟩ 2 (-2) (-12) 100 :=
    ⟨by decide +kernel, by decide +kernel, by decide +kernel, by decide +kernel, two_ne_zero⟩
  obtain ⟨solution, hsolve, hr⟩ := hn.exists_solution (.two (by norm_num))
  obtain ⟨-, ⟨reading, hread, hroots, -⟩, -⟩ := texts_of_solve hsolve
  rw [hr] at hroots
  exact ⟨solution, reading, hsolve, hread, _, _, hr, by decide +kernel, by decide +kernel, hroots⟩

end Quadratic

end Reckoner
