import Mathlib
import Reckoner.Proofs.Expression.Meaning

/-!
# Products without a sign

A sign that is left out between two texts may as well be written. Two texts are `SignedBetween` if spelling out the
one behind the other writes a sign exactly where they meet: the first one displays a text, this becomes another one
by its constants, and this is cut into chunks, all just up to the sign.

Where a sign is written the texts meet between two chunks, an operand before and an operand behind
(`signedBetween_iff`). So no stage looks from one text into the other: no two asterisks make a power sign, no
constant begins or ends, and no chunk goes on. Each stage does the same with the sign between the texts
(`normalize_product`).
-/

namespace Reckoner

open Chunk (mark name number)

namespace Constant

/-- A text with the values of some of its constants. -/
inductive Replaces : List Char → List Char → Prop where
  | nil :
    Replaces [] []
  | keep {c s x} :
    Replaces s x →
    Replaces (c :: s) (c :: x)
  | value {k : Constant} {s x} :
    Replaces s x →
    Replaces (k.name.toList ++ s) (k.spelled ++ x)

namespace Replaces

variable {s t x y : List Char}

lemma refl (s : List Char) : Replaces s s := by
  induction s with
  | nil => exact .nil
  | cons c s ih => exact .keep ih

lemma append (h : Replaces s x) (h' : Replaces t y) : Replaces (s ++ t) (x ++ y) := by
  induction h with
  | nil => exact h'
  | keep _ ih => exact .keep ih
  | value _ ih =>
    rw [List.append_assoc, List.append_assoc]
    exact .value ih

/-- The values of constants differ in their first digits. -/
lemma spelled_append_inj {j k : Constant} (h : j.spelled ++ x = k.spelled ++ y) : j = k ∧ x = y := by
  have hj : j = k := by
    rw [spelled, spelled, text_value, text_value] at h
    cases j <;> cases k <;> first | rfl | simp [numeral] at h
  subst hj
  exact ⟨rfl, List.append_cancel_left h⟩

/-- A constant does not begin as its value does. -/
lemma not_value {k : Constant} {c : Char} {w : List Char} (hs : c :: s <+: w) (ht : k.name.toList ++ t <+: w)
    (h : c :: x = k.spelled ++ y) : False := by
  have hc : c = '(' := (List.cons.inj h).1
  subst hc
  obtain ⟨w, rfl⟩ := hs
  cases k <;> simp [name] at ht

/-- What is replaced is known from its outcome and any text that it is the start of. -/
theorem unique {w : List Char} (h : Replaces s x) (h' : Replaces t x) (hs : s <+: w) (ht : t <+: w) : s = t := by
  induction h generalizing t w with
  | nil =>
    generalize e : ([] : List Char) = y at h'
    cases h' with
    | nil => rfl
    | keep => cases e
    | value => cases e
  | @keep c s x h ih =>
    generalize e : c :: x = y at h'
    cases h' with
    | nil => cases e
    | keep h' =>
      cases e
      obtain ⟨w, rfl⟩ := hs
      rw [List.cons_append, List.cons_prefix_cons] at ht
      rw [ih h' (List.prefix_append s w) ht.2]
    | value => exact (not_value hs ht e).elim
  | @value k s x h ih =>
    generalize e : k.spelled ++ x = y at h'
    cases h' with
    | nil => cases e
    | keep => exact (not_value ht hs e.symm).elim
    | value h' =>
      obtain ⟨rfl, rfl⟩ := spelled_append_inj e
      obtain ⟨w, rfl⟩ := hs
      rw [List.append_assoc, List.prefix_append_right_inj] at ht
      rw [ih h' (List.prefix_append s w) ht]

end Replaces

end Constant

namespace Expression

/-- What is displayed is known from the display and any text that it is the start of. -/
lemma Displays.unique {r s t w : List Char} (h : Displays r s) (h' : Displays r t) (hs : s <+: w) (ht : t <+: w) :
    s = t := by
  induction h generalizing t w with
  | nil =>
    cases h'
    rfl
  | @symbol c r s h ih =>
    cases h' with
    | symbol h' =>
      obtain ⟨w, rfl⟩ := hs
      rw [List.append_assoc, List.prefix_append_right_inj] at ht
      rw [ih h' (List.prefix_append s w) ht]
    | stars =>
      -- Two asterisks are either kept or a power sign, and the text tells which.
      obtain ⟨w, rfl⟩ := hs
      cases (List.cons_prefix_cons.mp ht).1
  | @stars r s h ih =>
    obtain ⟨w, rfl⟩ := hs
    generalize e : '*' :: '*' :: r = q at h'
    cases h' with
    | nil => cases e
    | symbol =>
      cases e
      cases (List.cons_prefix_cons.mp ht).1
    | stars h' =>
      cases e
      rw [List.cons_append, List.cons_prefix_cons] at ht
      rw [ih h' (List.prefix_append s w) ht.2]

/-- An asterisk at the end shows an asterisk or a power sign. -/
lemma Displays.getLast? {r s : List Char} (h : Displays r s) (hr : r.getLast? = some '*') :
    s.getLast? = some '*' ∨ s.getLast? = some '^' := by
  induction h with
  | nil => cases hr
  | @symbol c r s h ih =>
    cases r with
    | nil =>
      cases h
      cases hr
      exact .inl rfl
    | cons d r =>
      rw [List.getLast?_cons_cons] at hr
      have hs : s ≠ [] := by
        rintro rfl
        simpa using ih hr
      rw [List.getLast?_append_of_ne_nil _ hs]
      exact ih hr
  | @stars r s h ih =>
    cases r with
    | nil =>
      cases h
      exact .inr rfl
    | cons d r =>
      rw [List.getLast?_cons_cons, List.getLast?_cons_cons] at hr
      have hs : s ≠ [] := by
        rintro rfl
        simpa using ih hr
      rw [← List.singleton_append, List.getLast?_append_of_ne_nil _ hs]
      exact ih hr

lemma Displays.head? {r s : List Char} (h : Displays r s) (hr : r.head? = some '*') :
    s.head? = some '*' ∨ s.head? = some '^' := by
  cases h with
  | nil => cases hr
  | symbol =>
    cases hr
    exact .inl rfl
  | stars => exact .inr rfl

/-- Where no asterisk stands on either side, texts are expanded one by one, with a sign between them or without. -/
lemma expand_append_of_ne {u v : List Char} (hu : (Text.dropBlanks u).getLast? ≠ some '*')
    (hv : (Text.dropBlanks v).head? ≠ some '*') :
    expand (u ++ v) = expand u ++ expand v ∧ expand (u ++ '*' :: v) = expand u ++ '*' :: expand v := by
  have hstar : Text.isBlank '*' = false := by decide
  simp only [expand, Text.dropBlanks_append, Text.dropBlanks_cons hstar]
  generalize Text.dropBlanks u = r at hu
  generalize Text.dropBlanks v = q at hv
  have hbefore : foldStars (r ++ ['*']) = foldStars r ++ ['*'] := by
    obtain rfl | ⟨r, d, rfl⟩ := List.eq_nil_or_concat r
    · rfl
    · rw [List.concat_eq_append] at hu ⊢
      have hd : d ≠ '*' := by simpa using hu
      rw [List.append_assoc, List.singleton_append, foldStars_append hd, foldStars_append hd]
      simp [foldStars]
  cases q with
  | nil => simp [hbefore, foldStars, plainForm]
  | cons c q =>
    have hc : c ≠ '*' := by simpa using hv
    have hcons : foldStars (c :: q) = c :: foldStars q := foldStars_cons fun e => absurd e hc
    have hsplit : r ++ '*' :: c :: q = (r ++ ['*']) ++ c :: q := by simp
    rw [hsplit, foldStars_append hc, foldStars_append hc, hbefore, hcons]
    simp [plainForm]

end Expression

namespace Chunk

open Expression (isJuxtaposition insertTimes)

variable {j k : Chunk} {l r : List Chunk}

/-- Two parts of a canonical list are canonical. -/
lemma Canonical.of_append (h : Canonical (l ++ r)) : Canonical l ∧ Canonical r := by
  induction l with
  | nil => exact ⟨trivial, h⟩
  | cons k l ih =>
    obtain ⟨hl, hr⟩ := ih h.2.2
    refine ⟨⟨h.1, fun c hc => h.2.1 c ?_, hl⟩, hr⟩
    obtain ⟨s, hs⟩ := List.head?_eq_some_iff.mp hc
    change c ∈ (join (l ++ r)).head?
    rw [join_append, hs]
    rfl

/-- A character that no name and no numeral has is a chunk of its own. -/
lemma eq_mark_of_mem {c : Char} (h : k.Proper) (hc : c ∈ k.text) (ha : c.isAlphanum = false)
    (hp : Numeral.isPart c = false) : k = mark c := by
  cases k with
  | name s =>
    cases h with
    | @name d l hd hl =>
      have hall : ∀ e ∈ d :: l, e.isAlphanum := List.forall_mem_cons.mpr ⟨by simp [Char.isAlphanum, hd], hl⟩
      rw [hall c hc] at ha
      cases ha
  | number d =>
    rw [h.isPart c hc] at hp
    cases hp
  | mark d =>
    rw [List.mem_singleton.mp hc]

/-- What replaces a chunk has some of its constants replaced. -/
lemma replaces_join (l : List Chunk) : Constant.Replaces (join l) (join (l.flatMap replaceAll)) := by
  induction l with
  | nil => exact .nil
  | cons k l ih =>
    rw [join_cons, List.flatMap_cons, join_append]
    refine .append ?_ ih
    cases k with
    | number d => simpa [replaceAll] using .refl d
    | mark c => simpa [replaceAll, text] using .refl [c]
    | name s =>
      obtain h | ⟨k, h, rfl⟩ | ⟨r, k, h, rfl⟩ := Expression.replaceAll_name_cases s
      · rw [h]
        simpa using .refl s
      · rw [h, join_valueGroup]
        simpa [text] using Constant.Replaces.value (k := k) .nil
      · rw [h, join_cons, join_valueGroup]
        exact .append (.refl r) (by simpa using Constant.Replaces.value (k := k) .nil)

/-- No sign is left out within what replaces a chunk. -/
lemma isChain_replaceAll (k : Chunk) :
    k.replaceAll.IsChain fun a b => isJuxtaposition a b = false := by
  cases k with
  | number d => exact .singleton _
  | mark c => exact .singleton _
  | name s =>
    obtain h | ⟨k, h, -⟩ | ⟨r, k, h, -⟩ := Expression.replaceAll_name_cases s
    · rw [h]
      exact .singleton _
    · rw [h]
      simp [valueGroup, isJuxtaposition, isNumber, isName]
    · rw [h]
      simp [valueGroup, isJuxtaposition, isNumber, isName]

/-- A sign is written between what replaces two lists of chunks. -/
lemma exists_cut {m : List Chunk} (h : m.flatMap replaceAll = (l ++ [j]) ++ k :: r)
    (hj : isJuxtaposition j k = true) :
    ∃ a b, m = a ++ b ∧ a.flatMap replaceAll = l ++ [j] ∧ b.flatMap replaceAll = k :: r := by
  rw [List.flatMap_def, List.flatten_eq_append_iff] at h
  obtain ⟨as, bs, hm, hl, hr⟩ | ⟨as, b, c, cs, ds, hm, hl, hr⟩ := h
  · obtain ⟨a, b, rfl, rfl, rfl⟩ := List.map_eq_append_iff.mp hm
    exact ⟨a, b, rfl, hl.symm, hr.symm⟩
  · obtain ⟨a, b', rfl, rfl, hb⟩ := List.map_eq_append_iff.mp hm
    obtain ⟨e, d, rfl, he, rfl⟩ := List.map_eq_cons_iff.mp hb
    rcases List.eq_nil_or_concat b with rfl | ⟨b, i, rfl⟩
    · refine ⟨a, e :: d, rfl, by rw [List.flatMap_def, hl, List.append_nil], ?_⟩
      rw [List.flatMap_cons, he, List.flatMap_def, hr]
      rfl
    · -- The sign would stand inside what replaces one chunk.
      rw [List.concat_eq_append] at he hl
      rw [← List.append_assoc] at hl
      obtain rfl : j = i := by simpa using (List.append_inj' hl rfl).2
      obtain rfl : k = c := (List.cons.inj hr).1
      have hchain := isChain_replaceAll e
      rw [he, List.append_assoc, List.singleton_append] at hchain
      have hik := (List.isChain_cons_cons.mp (List.isChain_append.mp hchain).2.1).1
      rw [hj] at hik
      cases hik

/-- Where a sign is written between two lists, it is written between their neighbours. -/
lemma exists_of_insertTimes (h : insertTimes (l ++ r) = insertTimes l ++ mark '*' :: insertTimes r) :
    ∃ m j k q, l = m ++ [j] ∧ r = k :: q ∧ isJuxtaposition j k = true := by
  have hlen := congrArg List.length h
  rcases List.eq_nil_or_concat l with rfl | ⟨m, j, rfl⟩
  · simp [insertTimes] at hlen
  · rw [List.concat_eq_append] at h hlen ⊢
    cases r with
    | nil => simp [insertTimes] at hlen
    | cons k q =>
      refine ⟨m, j, k, q, rfl, rfl, ?_⟩
      by_contra hj
      rw [List.append_assoc, List.singleton_append, insertTimes_append, if_neg hj] at hlen
      simp at hlen

end Chunk

namespace Expression

open Chunk (join)
open Constant (substituteAll Replaces)

/-- Spelling out one text behind the other writes the sign of a product exactly between them: what the first one
displays, with its constants replaced, is the text of the chunks before the sign, and the second one's is that of
those behind it. -/
inductive SignedBetween (u v : List Char) : Prop where
  | mk {s t x y l r} :
    expand (u ++ v) = s ++ t →
    Displays (Text.dropBlanks u) s →
    Displays (Text.dropBlanks v) t →
    substituteAll (s ++ t) = x ++ y →
    Replaces s x →
    Replaces t y →
    Chunk.split (x ++ y) = l ++ r →
    join l = x →
    join r = y →
    insertTimes (l ++ r) = insertTimes l ++ mark '*' :: insertTimes r →
    SignedBetween u v

variable {u v : List Char}

/-- No operator stands where a text ends before a sign that is written. -/
lemma getLast?_ne_of_isJuxtaposition {a l : List Chunk} {j k : Chunk} {c : Char} (ha : ∀ i ∈ a, i.Proper)
    (hl : a.flatMap Chunk.replaceAll = l ++ [j]) (hj : isJuxtaposition j k = true) (hc : c = '*' ∨ c = '^') :
    (join a).getLast? ≠ some c := by
  intro he
  rcases List.eq_nil_or_concat a with rfl | ⟨a, i, rfl⟩
  · cases he
  · rw [List.concat_eq_append] at ha hl he
    have hi : i.Proper := ha i (List.mem_append_right _ List.mem_cons_self)
    rw [Chunk.join_append, Chunk.join_cons, Chunk.join_nil, List.append_nil,
      List.getLast?_append_of_ne_nil _ hi.text_ne_nil] at he
    obtain rfl : i = mark c :=
      Chunk.eq_mark_of_mem hi (List.mem_of_getLast? he) (by obtain rfl | rfl := hc <;> decide)
        (by obtain rfl | rfl := hc <;> decide)
    rw [List.flatMap_append, List.flatMap_singleton] at hl
    obtain rfl : mark c = j := List.singleton_inj.mp (List.append_inj' hl rfl).2
    obtain rfl | rfl := hc <;> simp [isJuxtaposition, Chunk.isNumber] at hj

/-- No operator stands where a text begins behind a sign that is written. -/
lemma head?_ne_of_isJuxtaposition {b r : List Chunk} {j k : Chunk} {c : Char} (hb : ∀ i ∈ b, i.Proper)
    (hr : b.flatMap Chunk.replaceAll = k :: r) (hj : isJuxtaposition j k = true) (hc : c = '*' ∨ c = '^') :
    (join b).head? ≠ some c := by
  intro he
  cases b with
  | nil => cases he
  | cons i b =>
    have hi : i.Proper := hb i List.mem_cons_self
    rw [hi.head?_join] at he
    obtain rfl : i = mark c :=
      Chunk.eq_mark_of_mem hi (List.mem_of_head? he) (by obtain rfl | rfl := hc <;> decide)
        (by obtain rfl | rfl := hc <;> decide)
    obtain rfl : mark c = k := (List.cons.inj hr).1
    obtain rfl | rfl := hc <;> simp [isJuxtaposition, Chunk.isName, Chunk.isNumber] at hj

/-- Texts that meet where a sign is written are expanded one by one, with the sign or without. -/
lemma expand_append_of_isJuxtaposition {a b l r : List Chunk} {j k : Chunk} (ha : ∀ i ∈ a, i.Proper)
    (hb : ∀ i ∈ b, i.Proper) (hu : Displays (Text.dropBlanks u) (join a)) (hv : Displays (Text.dropBlanks v) (join b))
    (hl : a.flatMap Chunk.replaceAll = l ++ [j]) (hr : b.flatMap Chunk.replaceAll = k :: r)
    (hj : isJuxtaposition j k = true) :
    expand (u ++ v) = expand u ++ expand v ∧ expand (u ++ '*' :: v) = expand u ++ '*' :: expand v := by
  refine expand_append_of_ne (fun he => ?_) fun he => ?_
  · exact (hu.getLast? he).elim (getLast?_ne_of_isJuxtaposition ha hl hj (.inl rfl))
      (getLast?_ne_of_isJuxtaposition ha hl hj (.inr rfl))
  · exact (hv.head? he).elim (head?_ne_of_isJuxtaposition hb hr hj (.inl rfl))
      (head?_ne_of_isJuxtaposition hb hr hj (.inr rfl))

section Meeting

variable {l r : List Chunk} {j k : Chunk}

lemma expand_append_of_replaced (hl : Chunk.replaced (expand u) = l ++ [j]) (hr : Chunk.replaced (expand v) = k :: r)
    (hj : isJuxtaposition j k = true) :
    expand (u ++ v) = expand u ++ expand v ∧ expand (u ++ '*' :: v) = expand u ++ '*' :: expand v := by
  have hdisplays (w : List Char) : Displays (Text.dropBlanks w) (join (Chunk.split (expand w))) := by
    rw [Chunk.join_split]
    exact displays_expand w
  exact expand_append_of_isJuxtaposition (Chunk.canonical_split _).proper (Chunk.canonical_split _).proper
    (hdisplays u) (hdisplays v) hl hr hj

lemma replaced_append {s t : List Char} (h : Chunk.split (s ++ t) = Chunk.split s ++ Chunk.split t) :
    Chunk.replaced (s ++ t) = Chunk.replaced s ++ Chunk.replaced t := by
  rw [Chunk.replaced, h, List.flatMap_append]
  rfl

/-- A sign is written between chunks that are side by side in a product. -/
lemma insertTimes_append_of_isJuxtaposition (hj : isJuxtaposition j k = true) :
    insertTimes ((l ++ [j]) ++ k :: r) = insertTimes (l ++ [j]) ++ mark '*' :: insertTimes (k :: r) := by
  rw [List.append_assoc, List.singleton_append, Chunk.insertTimes_append, if_pos hj]
  rfl

end Meeting

/-- A sign is written between two texts exactly if they meet between two chunks, an operand before and an operand
behind. -/
theorem signedBetween_iff :
    SignedBetween u v ↔
      Chunk.split (expand u ++ expand v) = Chunk.split (expand u) ++ Chunk.split (expand v) ∧
        ∃ l j k r, Chunk.replaced (expand u) = l ++ [j] ∧ Chunk.replaced (expand v) = k :: r ∧
          isJuxtaposition j k = true := by
  constructor
  · rintro ⟨hst, hu, hv, hxy, hx, -, hsplit, hl, -, hstar⟩
    rename_i s t x y l r
    have hm : (Chunk.split (s ++ t)).flatMap Chunk.replaceAll = l ++ r := by
      rw [← Chunk.split_substituteAll, hxy, hsplit]
    obtain ⟨m, j, k, q, rfl, rfl, hj⟩ := Chunk.exists_of_insertTimes hstar
    obtain ⟨a, b, hab, ha, hb⟩ := Chunk.exists_cut hm hj
    obtain ⟨hca, hcb⟩ := (hab ▸ Chunk.canonical_split (s ++ t) : Chunk.Canonical (a ++ b)).of_append
    -- The texts meet between the chunks `a` and `b`.
    have hjoin : join a ++ join b = s ++ t := by
      rw [← Chunk.join_append, ← hab, Chunk.join_split]
    have has : join a = s := by
      refine Replaces.unique ?_ hx ⟨join b, hjoin⟩ (List.prefix_append s t)
      rw [← hl, ← ha]
      exact Chunk.replaces_join a
    subst has
    have hbt : join b = t := List.append_cancel_left hjoin
    subst hbt
    have hexpand := (expand_append_of_isJuxtaposition hca.proper hcb.proper hu hv ha hb hj).1
    have heu : expand u = join a :=
      (displays_expand u).unique hu (hexpand ▸ List.prefix_append _ _) (hst ▸ List.prefix_append _ _)
    have hev : expand v = join b := by
      rw [hexpand, heu] at hst
      exact List.append_cancel_left hst
    rw [heu, hev, Chunk.replaced, Chunk.replaced, Chunk.split_join hca, Chunk.split_join hcb]
    exact ⟨hab, m, j, k, q, ha, hb, hj⟩
  · rintro ⟨hsplit, l, j, k, r, hl, hr, hj⟩
    have hreplaces (w : List Char) : Replaces (expand w) (join (Chunk.replaced (expand w))) := by
      have h := Chunk.replaces_join (Chunk.split (expand w))
      rwa [Chunk.join_split] at h
    have hchunks : Chunk.split (substituteAll (expand u ++ expand v)) =
        Chunk.replaced (expand u) ++ Chunk.replaced (expand v) := by
      rw [Chunk.split_substituteAll, ← replaced_append hsplit]
      rfl
    have htext : substituteAll (expand u ++ expand v) =
        join (Chunk.replaced (expand u)) ++ join (Chunk.replaced (expand v)) := by
      rw [← Chunk.join_append, ← hchunks, Chunk.join_split]
    refine .mk (expand_append_of_replaced hl hr hj).1 (displays_expand u) (displays_expand v) htext (hreplaces u)
      (hreplaces v) (htext ▸ hchunks) rfl rfl ?_
    rw [hl, hr, insertTimes_append_of_isJuxtaposition hj]

/-- The sign that is left out between two texts changes nothing when it is written. -/
theorem spell_product (h : SignedBetween u v) : spell (u ++ '*' :: v) = spell (u ++ v) := by
  obtain ⟨hsplit, l, j, k, r, hl, hr, hj⟩ := signedBetween_iff.mp h
  obtain ⟨hwithout, hwith⟩ := expand_append_of_replaced hl hr hj
  have hsigned : Chunk.signed (expand u ++ '*' :: expand v) = Chunk.signed (expand u ++ expand v) := by
    rw [Chunk.signed, Chunk.signed, Chunk.replaced_append_mark (.mark rfl rfl (by decide)), replaced_append hsplit,
      hl, hr, Chunk.insertTimes_append_mark (by decide), Chunk.insertTimes_mark_cons (by decide),
      insertTimes_append_of_isJuxtaposition hj]
  rw [spell, spell, Chunk.spellChunks_eq, Chunk.spellChunks_eq, hwith, hwithout, hsigned]

/-- A product whose sign is left out between two texts is spelled out as the one with its sign, so that both have
one value, or none for one cause. -/
theorem normalize_product {u v : String} (h : SignedBetween u.toList v.toList) :
    normalize (u ++ "*" ++ v) = normalize (u ++ v) ∧
      (evaluate (u ++ "*" ++ v)).mapError Failure.cause = (evaluate (u ++ v)).mapError Failure.cause := by
  have hs : spell (u ++ "*" ++ v).toList = spell (u ++ v).toList := by
    have hlist : (u ++ "*" ++ v).toList = u.toList ++ '*' :: v.toList := by simp
    rw [hlist, spell_product h, String.toList_append]
  constructor
  · rw [normalize, normalize, hs]
  · rw [evaluate, evaluate, hs]
    cases evaluateSpelled (spell (u ++ v).toList) <;> rfl

/-- A constant before a group, shown by a display symbol. -/
theorem normalize_product_display :
    normalize ("2π" ++ "*" ++ "(3 + 1)") = normalize ("2π" ++ "(3 + 1)") ∧
      (evaluate ("2π" ++ "*" ++ "(3 + 1)")).mapError Failure.cause =
        (evaluate ("2π" ++ "(3 + 1)")).mapError Failure.cause := by
  refine normalize_product (signedBetween_iff.mpr ⟨by cbv, ?_⟩)
  exact ⟨[number ['2'], mark '(', number "3.141592653589793".toList], mark ')', mark '(',
    [number ['3'], mark '+', number ['1'], mark ')'], by cbv, by cbv, rfl⟩

end Expression

end Reckoner
