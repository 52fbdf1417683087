import Mathlib
import Reckoner.Proofs.Number.Numeral
import Reckoner.Proofs.Number.Written

/-!
# Plain numerals

A numeral `Denotes` a double without a minus sign if no other double is nearer to the number written. Reading a
numeral finds the double that it denotes (`value_of_denotes`): the value is the nearest double, and as its
digits are multiplied and divided without a sign, not even a zero comes out with one (`isNegative_value`). Every
finite double without a minus sign has such a numeral (`exists_denotes`).
-/

namespace Reckoner

namespace Number

open Float.Model (UnpackedFloat Format)
open Float.Model.UnpackedFloat (Sign packComponents normalize)

/-- No minus sign, not even on a zero. -/
def IsPlus : UnpackedFloat → Prop
  | .zero s | .infinity s | .finite s .. => s = .positive
  | .notANumber => True

lemma isNegative_eq_false_iff (x : Float) : isNegative x = false ↔ IsPlus x.toModel.unpack := by
  rw [isNegative]
  cases x.toModel.unpack with
  | notANumber => simp [IsPlus]
  | zero s => cases s <;> simp [IsPlus]
  | infinity s => cases s <;> simp [IsPlus]
  | finite s m e hm => cases s <;> simp [IsPlus]

variable {u v : UnpackedFloat}

lemma isPlus_packComponents (e : BitVec 11) (m : BitVec 52) :
    IsPlus (UnpackedFloat.unpack Format.binary64 (packComponents Format.binary64 .positive e m)) := by
  rw [unpack_packComponents]
  split
  · split <;> trivial
  · split
    · split <;> rfl
    · rfl

lemma isPlus_pack (hu : IsPlus u) : IsPlus (Float.Model.pack u).unpack := by
  change IsPlus (UnpackedFloat.unpack Format.binary64 (UnpackedFloat.pack Format.binary64 u))
  cases u with
  | notANumber => exact isPlus_packComponents _ _
  | zero s =>
    cases hu
    exact isPlus_packComponents _ _
  | infinity s =>
    cases hu
    exact isPlus_packComponents _ _
  | finite s m e hm =>
    cases hu
    rw [UnpackedFloat.pack]
    split
    · exact isPlus_packComponents _ _
    · split
      · exact isPlus_packComponents _ _
      · exact isPlus_packComponents _ _

lemma isPlus_roundWithAccuracy (m : ℕ) (e : ℤ) (acc : UnpackedFloat.Accuracy) :
    IsPlus (UnpackedFloat.roundWithAccuracy .binary64 .positive m e acc) := by
  rw [UnpackedFloat.roundWithAccuracy]
  simp only
  split <;> rfl

lemma isPlus_normalize (m : ℕ) (e : ℤ) : IsPlus (normalize .binary64 m e .positive) := by
  rw [UnpackedFloat.normalize]
  split
  · next h => exact absurd (compare_lt_iff_lt.mp h) (by omega)
  · rfl
  · exact isPlus_roundWithAccuracy ..

lemma isPlus_mul (hu : IsPlus u) (hv : IsPlus v) : IsPlus (UnpackedFloat.mul .binary64 u v) := by
  cases u <;> cases v <;> cases hu <;> cases hv <;>
    first | trivial | rfl | exact isPlus_roundWithAccuracy ..

lemma isPlus_div (hu : IsPlus u) (hv : IsPlus v) : IsPlus (UnpackedFloat.div .binary64 u v) := by
  cases u <;> cases v <;> cases hu <;> cases hv <;>
    first | trivial | rfl | exact isPlus_roundWithAccuracy ..

lemma isPlus_finite {m : ℕ} {e : ℤ} {hm : 0 < m} : IsPlus (.finite .positive m e hm) :=
  rfl

lemma isPlus_ofScientific (m : ℕ) (e : ℤ) : IsPlus (UnpackedFloat.ofScientific .binary64 m e) := by
  rw [UnpackedFloat.ofScientific]
  split
  · rfl
  · split
    · rfl
    · split
      · rfl
      · split
        · exact isPlus_mul isPlus_finite isPlus_finite
        · exact isPlus_div isPlus_finite isPlus_finite

lemma isNegative_powersOfTen {x : Float} (h : x ∈ Float.exactlyRepresentablePowersOfTen) :
    isNegative x = false := by
  have hall : Float.exactlyRepresentablePowersOfTen.all (!isNegative ·) := by decide +kernel
  simpa using Array.all_eq_true_iff_forall_mem.mp hall x h

/-- A decimal literal has no minus sign. -/
theorem isNegative_ofScientific (m : ℕ) (s : Bool) (e : ℕ) :
    isNegative (Float.ofScientific m s e) = false := by
  rw [Float.ofScientific]
  split
  · next h =>
    have hm : IsPlus m.toUInt64.toFloat.toModel.unpack := isPlus_pack (isPlus_normalize _ 0)
    have hs : e < Float.exactlyRepresentablePowersOfTen.size := by
      rw [size_powersOfTen]
      omega
    have he := (isNegative_eq_false_iff _).mp (isNegative_powersOfTen (Array.getElem_mem hs))
    rw [isNegative_eq_false_iff]
    cases s with
    | true => exact isPlus_pack (isPlus_div hm he)
    | false => exact isPlus_pack (isPlus_mul hm he)
  · rw [isNegative_eq_false_iff]
    exact isPlus_pack (isPlus_ofScientific m _)

end Number

namespace Numeral

open Number (toRat? round? isNegative)

/-- The double, without a minus sign, that is nearest to the number written. -/
structure Denotes (n : Numeral) (x : Float) : Prop where
  plus : isNegative x = false
  nearest : ∃ r, toRat? x = some r ∧ round? n.exact = some r

/-- The value of a numeral has no minus sign. -/
lemma isNegative_value (n : Numeral) : isNegative n.value = false :=
  Number.isNegative_ofScientific _ _ _

/-- Reading a numeral finds the double that it denotes. -/
theorem value_of_denotes {n : Numeral} {x : Float} (h : n.Denotes x) : n.value = x := by
  obtain ⟨r, hx, hr⟩ := h.nearest
  have hn : toRat? n.value = some r := n.toRat?_value.trans hr
  by_cases hz : r = 0
  · subst hz
    rw [Number.eq_zero_of_toRat? hn n.isNegative_value, Number.eq_zero_of_toRat? hx h.plus]
  · exact Number.eq_of_toRat? hn hx hz

/-- Zeros in front of the digits make room for as many places as there are zeros. -/
lemma exists_digits (m k : ℕ) :
    ∃ w f : List Char, w ≠ [] ∧ (∀ c ∈ w, c.isDigit) ∧ (∀ c ∈ f, c.isDigit) ∧ f.length = k ∧
      Text.natOfDigits (w ++ f) = m := by
  have hd : ∀ c ∈ List.replicate k '0' ++ Text.digitsOfNat m, c.isDigit :=
    List.forall_mem_append.mpr
      ⟨fun c hc => Text.isDigit_zeros hc, fun c hc => Text.isDigit_digitsOfNat hc⟩
  have hlen := List.length_pos_iff.mpr (Text.digitsOfNat_ne_nil m)
  generalize hl : List.replicate k '0' ++ Text.digitsOfNat m = l at hd
  have hk : l.length = k + (Text.digitsOfNat m).length := by
    rw [← hl, List.length_append, List.length_replicate]
  refine ⟨l.take (l.length - k), l.drop (l.length - k), ?_, ?_, ?_, ?_, ?_⟩
  · rw [← List.length_pos_iff, List.length_take]
    omega
  · exact fun c hc => hd c (List.mem_of_mem_take hc)
  · exact fun c hc => hd c (List.mem_of_mem_drop hc)
  · rw [List.length_drop]
    omega
  · rw [List.take_append_drop, ← hl, Text.natOfDigits_append, Text.natOfDigits_zeros, zero_mul, zero_add,
      Text.natOfDigits_digitsOfNat]

/-- Every decimal can be written as a numeral. -/
lemma exists_exact (d : Decimal) : ∃ s n, Spells s n ∧ n.exact = d.toRat := by
  by_cases he : 0 ≤ d.exponent
  · obtain ⟨k, hk⟩ := Int.eq_ofNat_of_zero_le he
    obtain ⟨w, f, hw, hwd, -, hf, hv⟩ := exists_digits (d.digits * 10 ^ k) 0
    obtain rfl := List.length_eq_zero_iff.mp hf
    refine ⟨w, _, .whole hw hwd, ?_⟩
    rw [exact, hv, Decimal.toRat, hk]
    simp
  · obtain ⟨k, hk⟩ := Int.exists_eq_neg_ofNat (a := d.exponent) (by omega)
    obtain ⟨w, f, hw, hwd, hfd, hf, hv⟩ := exists_digits d.digits k
    refine ⟨_, _, .pointed hw hwd hfd, ?_⟩
    rw [exact, hv, Decimal.toRat, hk, hf, zpow_neg, zpow_natCast, div_eq_mul_inv]

/-- A finite double without a minus sign is denoted by a numeral. -/
theorem exists_denotes {x : Float} (hf : x.isFinite) (hn : isNegative x = false) :
    ∃ s n, Spells s n ∧ n.Denotes x := by
  obtain ⟨r, hr⟩ := (Number.isFinite_iff x).mp hf
  by_cases hz : r = 0
  · refine ⟨['0'], ⟨['0'], []⟩, .whole (by simp) (by simp), hn, r, hr, ?_⟩
    rw [hz, ← Number.round?_zero]
    congr
    norm_num [exact, Text.natOfDigits]
  · obtain ⟨s, a, ha, hra, -, hs⟩ := Number.exists_signed hr hz
    have hpos : 0 < r := by
      cases s with
      | negative => exact absurd (hs.mpr rfl) (by simp [hn])
      | positive => exact hra ▸ ha
    obtain ⟨s, n, hs, he⟩ := exists_exact (Decimal.shortest x)
    refine ⟨s, n, hs, hn, r, hr, ?_⟩
    rw [he]
    exact Decimal.toRat?_shortest hr hpos

end Numeral

end Reckoner
