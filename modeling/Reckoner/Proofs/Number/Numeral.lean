import Mathlib
import Reckoner.Number.Numeral
import Reckoner.Text.Blank

/-!
# The grammar of numerals

`Spells` says without any cutting what a numeral looks like: digits, digits with a point behind or between
them, or digits behind a point. Reading accepts exactly these (`ofChars?_eq_some_iff`). Among the runs of
digits and points with at most one point, only the lone point is none (`exists_spells`).
-/

namespace Reckoner

namespace Numeral

/-- The texts of a numeral: `3`, `3.` and `3.25`, `.5`. -/
inductive Spells : List Char → Numeral → Prop
  | whole {w} :
    w ≠ [] → (∀ c ∈ w, c.isDigit) →
    Spells w ⟨w, []⟩
  | pointed {w f} :
    w ≠ [] → (∀ c ∈ w, c.isDigit) → (∀ c ∈ f, c.isDigit) →
    Spells (w ++ '.' :: f) ⟨w, f⟩
  | fraction {f} :
    f ≠ [] → (∀ c ∈ f, c.isDigit) →
    Spells ('.' :: f) ⟨[], f⟩

variable {s : List Char} {n : Numeral}

/-- Reading a text as a numeral accepts exactly what spells one. -/
theorem ofChars?_eq_some_iff : ofChars? s = some n ↔ Spells s n := by
  constructor
  · intro h
    have hs := List.takeWhile_append_dropWhile (p := Char.isDigit) (l := s)
    have hw : ∀ c ∈ s.takeWhile Char.isDigit, c.isDigit := fun c hc => List.mem_takeWhile_imp hc
    rw [ofChars?] at h
    generalize s.takeWhile Char.isDigit = w at h hs hw
    split at h
    · next hd =>
      rw [hd, List.append_nil] at hs
      split at h
      · cases h
      · next he =>
        cases h
        rw [← hs]
        exact .whole (by simpa using he) hw
    · next c f hd =>
      rw [hd] at hs
      split at h
      · next hc =>
        obtain ⟨rfl, hf, hn⟩ := hc
        cases h
        rw [← hs]
        have hf : ∀ c ∈ f, c.isDigit := List.all_eq_true.mp hf
        by_cases hwe : w = []
        · subst hwe
          exact .fraction (by simpa using hn) hf
        · exact .pointed hwe hw hf
      · cases h
  · intro h
    cases h with
    | whole hw hd =>
      have ht : s.takeWhile Char.isDigit = s := List.takeWhile_eq_self_iff.mpr hd
      have hr : s.dropWhile Char.isDigit = [] := List.dropWhile_eq_nil_iff.mpr hd
      rw [ofChars?, ht, hr]
      exact if_neg (by simpa using hw)
    | @pointed w f hw hd hf =>
      have hpoint : ∀ c ∈ ('.' :: f).head?, c.isDigit = false := by simp
      rw [ofChars?, Text.takeWhile_append_eq hd hpoint, Text.dropWhile_append_eq hd hpoint]
      exact if_pos ⟨rfl, List.all_eq_true.mpr hf, by simp [hw]⟩
    | @fraction f hf hd =>
      have hpoint : ¬Char.isDigit '.' = true := by decide
      rw [ofChars?, List.takeWhile_cons_of_neg hpoint, List.dropWhile_cons_of_neg hpoint]
      exact if_pos ⟨rfl, List.all_eq_true.mpr hd, by simp [hf]⟩

lemma Spells.parts (h : Spells s n) : ∀ c ∈ s, isPart c := by
  have part {c : Char} (hc : c.isDigit) : isPart c := by simp [isPart, hc]
  cases h with
  | whole _ hd => exact fun c hc => part (hd c hc)
  | pointed _ hd hf =>
    intro c hc
    obtain hc | hc := List.mem_append.mp hc
    · exact part (hd c hc)
    · obtain rfl | hc := List.mem_cons.mp hc
      · rfl
      · exact part (hf c hc)
  | fraction _ hd =>
    intro c hc
    obtain rfl | hc := List.mem_cons.mp hc
    · rfl
    · exact part (hd c hc)

lemma Spells.ne_nil (h : Spells s n) : s ≠ [] := by
  cases h with
  | whole hw _ => exact hw
  | pointed => simp
  | fraction => simp

lemma Spells.digits (h : Spells s n) : ∀ c ∈ n.whole ++ n.fraction, c.isDigit := by
  cases h with
  | whole _ hd => simpa using hd
  | pointed _ hd hf => exact List.forall_mem_append.mpr ⟨hd, hf⟩
  | fraction _ hd => simpa using hd

/-- A run of digits and points with at most one point is a numeral or a lone point. -/
theorem exists_spells (hs : s ≠ []) (hp : ∀ c ∈ s, isPart c) (hc : s.count '.' ≤ 1) :
    s = ['.'] ∨ ∃ n, Spells s n := by
  have digit {c : Char} (h : isPart c) (hn : c ≠ '.') : c.isDigit := by
    simpa [isPart, hn] using h
  by_cases hm : '.' ∈ s
  · obtain ⟨w, f, rfl, hw⟩ := List.eq_append_cons_of_mem hm
    have hf : '.' ∉ f := by
      intro hf
      have := List.count_pos_iff.mpr hf
      rw [List.count_append, List.count_cons_self] at hc
      omega
    have hwd : ∀ c ∈ w, c.isDigit := fun c hc =>
      digit (hp c (List.mem_append_left _ hc)) (fun e => hw (e ▸ hc))
    have hfd : ∀ c ∈ f, c.isDigit := fun c hc =>
      digit (hp c (List.mem_append_right _ (List.mem_cons_of_mem _ hc))) (fun e => hf (e ▸ hc))
    by_cases hwe : w = []
    · subst hwe
      by_cases hfe : f = []
      · subst hfe
        exact .inl rfl
      · exact .inr ⟨_, .fraction hfe hfd⟩
    · exact .inr ⟨_, .pointed hwe hwd hfd⟩
  · exact .inr ⟨_, .whole hs fun c hc => digit (hp c hc) (fun e => hm (e ▸ hc))⟩

end Numeral

end Reckoner
