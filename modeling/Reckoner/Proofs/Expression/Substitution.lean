import Mathlib
import Reckoner.Proofs.Expression.Identifier

/-!
# Passes over the constants

The constants of a text are replaced in passes, one constant after the other. A pass replaces the name of its
constant wherever the name stands alone, with no letter before it and neither a letter nor a digit after it
(`scan_none`). The later passes read what the earlier ones have written, and yet their order does not matter:
no chunk holds two constants, and where one was replaced nothing is left for any pass. So passes commute
(`substitute_comm`), and a constant that has had its pass needs no other (`substitute_substituteEach`).
-/

namespace Reckoner

namespace Chunk

/-- A pass leaves a chunk as it is, or leaves nothing to replace in it. -/
lemma replace_cases (k : Constant) (c : Chunk) :
    c.replace k = [c] ∨ ∀ j : Constant, (c.replace k).flatMap (replace j) = c.replace k := by
  cases c with
  | number d => exact .inl rfl
  | mark d => exact .inl rfl
  | name letters =>
    by_cases h : letters.rtakeWhile Char.isAlpha = k.name.toList
    · rw [replace, if_pos h]
      exact .inr fun j => flatMap_replace_value j k letters
    · rw [replace, if_neg h]
      exact .inl rfl

/-- Of two different constants at most one is replaced in a chunk. -/
lemma replace_of_ne {j k : Constant} (h : j ≠ k) (c : Chunk) : c.replace j = [c] ∨ c.replace k = [c] := by
  cases c with
  | number d => exact .inl rfl
  | mark d => exact .inl rfl
  | name letters =>
    by_cases hj : letters.rtakeWhile Char.isAlpha = j.name.toList
    · refine .inr (if_neg fun hk => h ?_)
      have := Constant.ofIdentifier?_name j
      rw [← hj, hk, Constant.ofIdentifier?_name] at this
      exact (Option.some.inj this).symm
    · exact .inl (if_neg hj)

/-- A chunk that a pass would leave alone is left alone in what another pass makes of it. -/
lemma flatMap_replace_of_eq {j k : Constant} {c : Chunk} (h : c.replace j = [c]) :
    (c.replace k).flatMap (replace j) = c.replace k := by
  obtain e | e := replace_cases k c
  · rw [e, List.flatMap_singleton, h]
  · exact e j

lemma flatMap_replace_comm (j k : Constant) (c : Chunk) :
    (c.replace k).flatMap (replace j) = (c.replace j).flatMap (replace k) := by
  by_cases hne : j = k
  · rw [hne]
  · obtain h | h := replace_of_ne hne c
    · rw [flatMap_replace_of_eq h, h, List.flatMap_singleton]
    · rw [flatMap_replace_of_eq h, h, List.flatMap_singleton]

lemma flatMap_replace_self (k : Constant) (c : Chunk) :
    (c.replace k).flatMap (replace k) = c.replace k := by
  obtain e | e := replace_cases k c
  · rw [e, List.flatMap_singleton, e]
  · exact e k

lemma split_inj {s t : List Char} : split s = split t ↔ s = t :=
  (Function.LeftInverse.injective join_split).eq_iff

end Chunk

namespace Constant

variable {k : Constant} {before : Option Char} {order : List Constant} {c : Char} {l s t : List Char}

/-- The text after a pass for each of the constants, in the order given. -/
def substituteEach (order : List Constant) (s : List Char) : List Char :=
  order.foldl (fun t k => k.substitute t) s

/-- Two passes may be swapped. -/
lemma substitute_comm (j k : Constant) (s : List Char) :
    j.substitute (k.substitute s) = k.substitute (j.substitute s) := by
  rw [← Chunk.split_inj]
  simp only [Chunk.split_substitute, List.flatMap_assoc, Chunk.flatMap_replace_comm j k]

/-- A pass leaves nothing for a second one. -/
lemma substitute_self (k : Constant) (s : List Char) : k.substitute (k.substitute s) = k.substitute s := by
  rw [← Chunk.split_inj]
  simp only [Chunk.split_substitute, List.flatMap_assoc, Chunk.flatMap_replace_self]

/-- Passes may be rearranged. -/
lemma substituteEach_perm {order' : List Constant} (h : order.Perm order') (s : List Char) :
    substituteEach order s = substituteEach order' s := by
  apply h.foldl_eq'
  intro j _ k _ t
  exact substitute_comm k j t

/-- A constant that has had its pass needs no other, whatever passes came after. -/
lemma substitute_substituteEach (h : k ∈ order) (s : List Char) :
    k.substitute (substituteEach order s) = substituteEach order s := by
  have hlast : substituteEach order s = k.substitute (substituteEach (order.erase k) s) := by
    have hp : order.Perm (order.erase k ++ [k]) :=
      (List.perm_cons_erase h).trans (List.perm_append_singleton k _).symm
    rw [substituteEach_perm hp, substituteEach, List.foldl_append]
    rfl
  rw [hlast, substitute_self]

/-- Once the constants have had their passes, further passes for them change nothing. -/
lemma substituteEach_of_subset {again : List Constant} (h : again ⊆ order) (s : List Char) :
    substituteEach again (substituteEach order s) = substituteEach order s := by
  induction again with
  | nil => rfl
  | cons k again ih =>
    obtain ⟨hk, hagain⟩ := List.cons_subset.mp h
    calc substituteEach (k :: again) (substituteEach order s)
        = substituteEach again (k.substitute (substituteEach order s)) := rfl
      _ = substituteEach again (substituteEach order s) := by rw [substitute_substituteEach hk]
      _ = substituteEach order s := ih hagain

/-- Whether a constant's name stands alone at the start of a text: no letter comes before the text, and neither a
letter nor a digit after the name. -/
def standsAlone (k : Constant) (before : Option Char) (s : List Char) : Bool :=
  before.all (!·.isAlpha) && k.name.toList.isPrefixOf s &&
    (s.drop k.name.toList.length).head?.all (!·.isAlphanum)

/-- The text, read from the left, with the constant's value wherever the name stands alone. What is read is the
text as it was: the character before a place is the one that was there, also where it was replaced. -/
def scan (k : Constant) (before : Option Char) (s : List Char) : List Char :=
  match s with
  | [] => []
  | c :: rest =>
    if k.standsAlone before (c :: rest) then
      k.spelled ++ k.scan k.name.toList.getLast? (rest.drop (k.name.toList.length - 1))
    else c :: k.scan (some c) rest
termination_by s.length
decreasing_by
  · simp only [List.length_drop, List.length_cons]
    omega
  · simp

lemma standsAlone_iff : k.standsAlone before s ↔
    (∀ c ∈ before, c.isAlpha = false) ∧ k.name.toList <+: s ∧
      ∀ c ∈ (s.drop k.name.toList.length).head?, c.isAlphanum = false := by
  simp [standsAlone, Option.all_eq_true, and_assoc]

lemma scan_cons_of_not (h : ¬k.standsAlone before (c :: s)) :
    k.scan before (c :: s) = c :: k.scan (some c) s := by
  rw [scan, if_neg h]

/-- A name that stands alone is replaced, and the text is read on behind it. -/
lemma scan_name_append (h : k.standsAlone before (k.name.toList ++ s)) :
    k.scan before (k.name.toList ++ s) = k.spelled ++ k.scan k.name.toList.getLast? s := by
  obtain ⟨c, l, e⟩ := List.exists_cons_of_ne_nil k.name_ne_nil
  rw [e, List.cons_append] at h ⊢
  rw [scan, if_pos h, e, List.length_cons, Nat.add_sub_cancel, List.drop_left]

/-- A name stands alone if it is all of a run of letters and no digit follows the run. -/
lemma standsAlone_letters_append (hl : ∀ c ∈ l, c.isAlpha)
    (hs : ∀ c ∈ s.head?, c.isAlpha = false) :
    k.standsAlone before (l ++ s) ↔
      (∀ c ∈ before, c.isAlpha = false) ∧ l = k.name.toList ∧ ¬startsWithDigit s := by
  rw [standsAlone_iff, Bool.not_eq_true, startsWithDigit_eq_false_iff]
  refine and_congr_right fun _ => ⟨?_, ?_⟩
  · rintro ⟨⟨r, hr⟩, hafter⟩
    rw [← hr, List.drop_left] at hafter
    have hra : ∀ c ∈ r.head?, c.isAlpha = false ∧ c.isDigit = false := fun c hc => by
      simpa [Char.isAlphanum] using hafter c hc
    -- Both the run and the name end at the first character that is no letter.
    have hname := Text.takeWhile_append_eq k.isAlpha_name fun c hc => (hra c hc).1
    have hrest := Text.dropWhile_append_eq k.isAlpha_name fun c hc => (hra c hc).1
    rw [hr, Text.takeWhile_append_eq hl hs] at hname
    rw [hr, Text.dropWhile_append_eq hl hs] at hrest
    rw [hrest]
    exact ⟨hname, fun c hc => (hra c hc).2⟩
  · rintro ⟨rfl, hd⟩
    refine ⟨List.prefix_append _ _, fun c hc => ?_⟩
    rw [List.drop_left] at hc
    simp [Char.isAlphanum, hs c hc, hd c hc]

/-- Inside a run of letters no name stands alone. -/
lemma scan_letters_append (hc : c.isAlpha) (hl : ∀ d ∈ l, d.isAlpha) (ht : ∀ b, k.scan b s = t) :
    k.scan (some c) (l ++ s) = l ++ t := by
  induction l generalizing c with
  | nil => exact ht (some c)
  | cons d l ih =>
    obtain ⟨hd, hl⟩ := List.forall_mem_cons.mp hl
    have hinside : ¬k.standsAlone (some c) (d :: (l ++ s)) := fun h =>
      absurd hc (by simp [(standsAlone_iff.mp h).1 c rfl])
    rw [List.cons_append, scan_cons_of_not hinside, ih hd hl, List.cons_append]

/-- A run of letters is replaced as a whole or not at all. -/
lemma scan_run_append (hb : ∀ c ∈ before, c.isAlpha = false) (hn : l ≠ []) (hl : ∀ c ∈ l, c.isAlpha)
    (hs : ∀ c ∈ s.head?, c.isAlpha = false) (ht : ∀ b, k.scan b s = t) :
    k.scan before (l ++ s) = (if l = k.name.toList ∧ ¬startsWithDigit s then k.spelled else l) ++ t := by
  have halone := @standsAlone_letters_append k before l s hl hs
  split
  · next h =>
    obtain ⟨rfl, hd⟩ := h
    rw [scan_name_append (halone.mpr ⟨hb, rfl, hd⟩), ht]
  · next h =>
    have hnot : ¬k.standsAlone before (l ++ s) := fun ha => h (halone.mp ha).2
    obtain ⟨c, l, rfl⟩ := List.exists_cons_of_ne_nil hn
    obtain ⟨hc, hl⟩ := List.forall_mem_cons.mp hl
    rw [List.cons_append] at hnot ⊢
    rw [scan_cons_of_not hnot, scan_letters_append hc hl ht, List.cons_append]

/-- A pass read from a place that is not inside a run of letters. -/
lemma scan_eq_substitute
    (h : (∀ c ∈ before, c.isAlpha = false) ∨ ∀ c ∈ s.head?, c.isAlpha = false) :
    k.scan before s = k.substitute s := by
  fun_induction substitute k s generalizing before with
  | case1 => rw [scan]
  | case2 c rest hc run after =>
    rename_i ih
    have hb : ∀ d ∈ before, d.isAlpha = false := h.resolve_right fun hr =>
      absurd hc (by simp [hr c rfl])
    have hrun : ∀ d ∈ run, d.isAlpha :=
      List.forall_mem_cons.mpr ⟨hc, fun d hd => List.mem_takeWhile_imp hd⟩
    have hafter : ∀ d ∈ after.head?, d.isAlpha = false := Text.head?_dropWhile
    have hrest : c :: rest = run ++ after := by
      simp [run, after, List.takeWhile_append_dropWhile]
    rw [hrest]
    exact scan_run_append hb (List.cons_ne_nil _ _) hrun hafter fun b => ih (.inr hafter)
  | case3 c rest hc ih =>
    -- A name starts with a letter.
    have hnot : ¬k.standsAlone before (c :: rest) := fun ha => by
      obtain ⟨-, ⟨r, hr⟩, -⟩ := standsAlone_iff.mp ha
      obtain ⟨d, l, e⟩ := List.exists_cons_of_ne_nil k.name_ne_nil
      rw [e, List.cons_append] at hr
      obtain ⟨rfl, -⟩ := List.cons.inj hr
      exact hc (k.isAlpha_name d (by simp [e]))
    rw [scan_cons_of_not hnot, ih (.inl (by simpa using hc))]

/-- A pass replaces the name of its constant wherever it stands alone. -/
theorem scan_none (k : Constant) (s : List Char) : k.scan none s = k.substitute s :=
  scan_eq_substitute (.inl (by simp))

/-- Passes for all constants give the same text in every order, and on that text they change nothing. A pass is
the replacement of the names that stand alone. -/
theorem substitute_in_any_order (h : order.Perm all) (s : List Char) :
    substituteEach order s = substituteAll s ∧ substituteAll (substituteAll s) = substituteAll s ∧
      ∀ k : Constant, k.substitute s = k.scan none s := by
  refine ⟨substituteEach_perm h s, ?_, fun k => (scan_none k s).symm⟩
  exact substituteEach_of_subset (List.Subset.refl all) s

/-- The shortest name first, in a text where names touch digits and one another. -/
theorem substitute_in_any_order_shortest_first :
    [e, pi, phi].Perm all ∧
      substituteEach [e, pi, phi] "2pi/phi-pie+e2*log2e".toList =
        substituteAll "2pi/phi-pie+e2*log2e".toList ∧
      substituteAll "2pi/phi-pie+e2*log2e".toList =
        "2(3.141592653589793)/(1.618033988749895)-pie+e2*log2(2.718281828459045)".toList ∧
      substituteAll (substituteAll "2pi/phi-pie+e2*log2e".toList) =
        substituteAll "2pi/phi-pie+e2*log2e".toList ∧
      ∀ k : Constant, k.substitute "2pi/phi-pie+e2*log2e".toList = k.scan none "2pi/phi-pie+e2*log2e".toList := by
  have horder : [e, pi, phi].Perm all := by decide
  obtain ⟨heach, hagain, hscan⟩ := substitute_in_any_order horder "2pi/phi-pie+e2*log2e".toList
  exact ⟨horder, heach, by decide +kernel, hagain, hscan⟩

/-- The passes go from the longest name to the shortest. -/
example : all.Pairwise fun j k => k.name.length < j.name.length := by decide

end Constant

end Reckoner
