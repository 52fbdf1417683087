import Mathlib
import Reckoner.Number.Exact

/-!
# Doubles as bits

A double is kept as 64 bits and unpacked for arithmetic into a sign, a mantissa and an exponent. Unpacking
gives canonical values only (`canonical_unpack`): 53 binary digits, fewer at the lowest exponent. Packing
keeps what is canonical (`unpack_pack`) and makes an infinity of an exponent that is too high
(`unpack_pack_of_lt`), and unpacking loses nothing (`pack_unpack`). So two doubles are the same as soon as
their unpacked forms are.
-/

namespace Reckoner

namespace Number

open Float.Model (UnpackedFloat Format)
open Float.Model.UnpackedFloat (Sign packComponents unpackSign unpackExponent unpackMantissa
  unpackMantissa_packComponents unpackExponent_packComponents)

lemma ofBitVec_toBitVec (s : Sign) : Sign.ofBitVec s.toBitVec = s := by
  cases s <;> rfl

lemma toBitVec_ofBitVec (b : BitVec 1) : (Sign.ofBitVec b).toBitVec = b := by
  revert b
  decide

section Components

variable {F : Format}

lemma unpackSign_packComponents (s : Sign) (e : BitVec F.exponentBits)
    (m : BitVec F.mantissaBitsWithoutImplicit) :
    unpackSign (packComponents F s e m) = s.toBitVec := by
  apply BitVec.eq_of_getLsbD_eq
  intro i hi
  obtain rfl : i = 0 := by omega
  simp [unpackSign, packComponents, BitVec.getLsbD_append, BitVec.getElem_append]

/-- Put together again, the components of a word are the word. -/
lemma packComponents_unpack (b : BitVec F.numBits) :
    packComponents F (Sign.ofBitVec (unpackSign b)) (unpackExponent b) (unpackMantissa b) = b := by
  apply BitVec.eq_of_getLsbD_eq
  intro i hi
  have hm := F.hm
  have he := F.he
  have hn : F.numBits = 1 + F.exponentBits + F.mantissaBitsWithoutImplicit := rfl
  rw [packComponents, toBitVec_ofBitVec, BitVec.getLsbD_append, BitVec.getLsbD_append]
  simp only [unpackSign, unpackExponent, unpackMantissa, BitVec.getLsbD_cast,
    BitVec.getLsbD_extractLsb]
  by_cases hi₁ : i < F.mantissaBitsWithoutImplicit
  · simp [hi₁, show i < F.mantissaBitsWithoutImplicit - 1 + 1 by omega]
  · by_cases hi₂ : i - F.mantissaBitsWithoutImplicit < F.exponentBits
    · have hsum : F.mantissaBitsWithoutImplicit + (i - F.mantissaBitsWithoutImplicit) = i := by
        omega
      simp [hi₁, hi₂, hsum]
      omega
    · obtain rfl : i = F.mantissaBitsWithoutImplicit + F.exponentBits := by omega
      simp

end Components

/-- What a sign, an exponent and a mantissa stand for as the fields of a double. -/
lemma unpack_packComponents (s : Sign) (e : BitVec 11) (m : BitVec 52) :
    UnpackedFloat.unpack Format.binary64 (packComponents Format.binary64 s e m) =
      if e = -1#_ then if m = 0#_ then .infinity s else .notANumber
      else if e = 0#_ then
        if h : m = 0#_ then .zero s
        else .finite s m.toNat (-1074) (by simpa [BitVec.toNat_pos, BitVec.pos_iff_ne_zero])
      else .finite s (2 ^ 52 + m.toNat) (e.toNat - 1075) (by positivity) := by
  have hbias : (Format.binary64.exponentBias : ℤ) + Format.binary64.mantissaBitsWithoutImplicit =
      1075 := rfl
  have hone : (1#1 ++ m).toNat = 2 ^ 52 + m.toNat := by
    rw [BitVec.toNat_append, ← Nat.shiftLeft_add_eq_or_of_lt m.isLt]
    rfl
  unfold UnpackedFloat.unpack
  simp only [unpackMantissa_packComponents, unpackExponent_packComponents,
    unpackSign_packComponents, ofBitVec_toBitVec, hbias, hone]
  split
  · rfl
  · split
    · next he =>
      subst he
      rfl
    · rfl

/-- A mantissa of 53 binary digits, or of fewer at the lowest exponent. -/
structure Fits (m : ℕ) (e : ℤ) : Prop where
  upper : m < 2 ^ 53
  lowest : -1074 ≤ e
  lead : 2 ^ 52 ≤ m ∨ e = -1074

/-- The unpacked forms of doubles. -/
def Canonical : UnpackedFloat → Prop
  | .finite _ m e _ => Fits m e ∧ e ≤ 971
  | _ => True

lemma toNat_ofNat_exponent {e : ℤ} (hl : -1074 ≤ e) (he : e ≤ 971) :
    (BitVec.ofNat 11 (e + 1075).toNat).toNat = (e + 1075).toNat := by
  rw [BitVec.toNat_ofNat]
  apply Nat.mod_eq_of_lt
  omega

section Fields

variable {m : ℕ} {e : ℤ}

lemma biased_eq (e : ℤ) :
    e + Format.binary64.exponentBias + Format.binary64.mantissaBitsWithoutImplicit = e + 1075 := by
  change e + 1023 + 52 = e + 1075
  omega

/-- The fields of a mantissa of 53 digits, whose first digit is left out. -/
lemma pack_of_lead (s : Sign) (hm : 0 < m) (hlead : 2 ^ 52 ≤ m) (hu : m < 2 ^ 53) (he : e ≤ 971) :
    UnpackedFloat.pack Format.binary64 (.finite s m e hm) =
      packComponents Format.binary64 s (BitVec.ofNat 11 (e + 1075).toNat) (BitVec.ofNat 52 m) := by
  have hlog : m.log2 = 52 := (Nat.log2_eq_iff hm.ne').mpr ⟨hlead, hu⟩
  have hbias := biased_eq e
  rw [UnpackedFloat.pack]
  simp only [hbias]
  rw [if_neg (by omega), if_pos (by rw [hlog]; rfl)]

/-- The fields of a mantissa of fewer digits, at the lowest exponent. -/
lemma pack_of_lt_lead (s : Sign) (hm : 0 < m) (hlt : m < 2 ^ 52) :
    UnpackedFloat.pack Format.binary64 (.finite s m (-1074) hm) =
      packComponents Format.binary64 s 0#11 (BitVec.ofNat 52 m) := by
  have hlog : m.log2 < 52 := (Nat.log2_lt hm.ne').mpr hlt
  have hdigits : ¬m.log2 + 1 = 53 := by omega
  have hbias := biased_eq (-1074)
  rw [UnpackedFloat.pack]
  simp only [hbias]
  rw [if_neg (by omega)]
  exact if_neg hdigits

end Fields

/-- The fields of a canonical number stand for it. -/
theorem unpack_pack {u : UnpackedFloat} (h : Canonical u) : (Float.Model.pack u).unpack = u := by
  change UnpackedFloat.unpack Format.binary64 (UnpackedFloat.pack Format.binary64 u) = u
  cases u with
  | notANumber =>
    rw [UnpackedFloat.pack, UnpackedFloat.packedNaN]
    refine (unpack_packComponents .positive (-1#_) _).trans ?_
    rw [if_pos rfl, if_neg (by decide)]
  | infinity s => exact unpack_packComponents s (-1#_) 0
  | zero s => exact unpack_packComponents s 0 0
  | finite s m e hm =>
    obtain ⟨⟨hu, hl, hlead⟩, he⟩ := h
    by_cases hge : 2 ^ 52 ≤ m
    · have hexp := toNat_ofNat_exponent hl he
      have hmant : (BitVec.ofNat 52 m).toNat = m - 2 ^ 52 := by
        rw [BitVec.toNat_ofNat]
        omega
      rw [pack_of_lead s hm hge hu he, unpack_packComponents, if_neg, if_neg]
      · congr 1
        · omega
        · omega
      · intro h0
        have := congrArg BitVec.toNat h0
        rw [hexp] at this
        simp at this
        omega
      · intro h1
        have := congrArg BitVec.toNat h1
        rw [hexp] at this
        simp at this
        omega
    · have hlt : m < 2 ^ 52 := not_le.mp hge
      have hmant : (BitVec.ofNat 52 m).toNat = m := by
        rw [BitVec.toNat_ofNat]
        exact Nat.mod_eq_of_lt hlt
      have hne : BitVec.ofNat 52 m ≠ 0#_ := by
        intro h0
        have := congrArg BitVec.toNat h0
        rw [hmant] at this
        exact hm.ne' this
      obtain rfl : e = -1074 := hlead.resolve_left hge
      rw [pack_of_lt_lead s hm hlt, unpack_packComponents, if_neg (by decide), if_pos rfl, dif_neg hne]
      congr 1

/-- An exponent that is too high gives an infinity. -/
theorem unpack_pack_of_lt {s : Sign} {m : ℕ} {e : ℤ} (hm : 0 < m) (he : 971 < e) :
    (Float.Model.pack (.finite s m e hm)).unpack = .infinity s := by
  have hbias := biased_eq e
  change UnpackedFloat.unpack Format.binary64 (UnpackedFloat.pack Format.binary64 _) = _
  rw [UnpackedFloat.pack]
  simp only [hbias]
  rw [if_pos (by omega)]
  exact unpack_packComponents s (-1#_) 0

/-- What is unpacked is canonical. -/
theorem canonical_unpack (x : Float.Model) : Canonical x.unpack := by
  change Canonical (UnpackedFloat.unpack Format.binary64 x.toBits.toBitVec)
  rw [← packComponents_unpack (F := Format.binary64) x.toBits.toBitVec]
  generalize @unpackExponent Format.binary64 x.toBits.toBitVec = e
  generalize @unpackMantissa Format.binary64 x.toBits.toBitVec = m
  generalize Sign.ofBitVec (@unpackSign Format.binary64 x.toBits.toBitVec) = s
  have hm : m.toNat < 2 ^ 52 := m.isLt
  have he : e.toNat < 2 ^ 11 := e.isLt
  rw [unpack_packComponents]
  split
  · split <;> trivial
  · next hinf =>
    have hinf : e.toNat ≠ 2047 := fun h => hinf (BitVec.eq_of_toNat_eq (by rw [h]; rfl))
    split
    · split
      · trivial
      · exact ⟨⟨by omega, le_rfl, .inr rfl⟩, by norm_num⟩
    · next hzero =>
      have hzero : e.toNat ≠ 0 := fun h => hzero (BitVec.eq_of_toNat_eq (by rw [h]; rfl))
      exact ⟨⟨by omega, by omega, .inl (by omega)⟩, by omega⟩

lemma eq_of_toBits_eq {x y : Float.Model} (h : x.toBits = y.toBits) : x = y := by
  cases x
  cases y
  cases h
  rfl

/-- Unpacking loses nothing. -/
theorem pack_unpack (x : Float.Model) : Float.Model.pack x.unpack = x := by
  have hvalid := x.valid.eq_packedNaN
  have hbits : UnpackedFloat.pack Format.binary64
      (UnpackedFloat.unpack Format.binary64 x.toBits.toBitVec) = x.toBits.toBitVec := by
    generalize x.toBits.toBitVec = b at hvalid
    revert hvalid
    rw [← packComponents_unpack (F := Format.binary64) b]
    generalize @unpackExponent Format.binary64 b = e
    generalize @unpackMantissa Format.binary64 b = m
    generalize Sign.ofBitVec (@unpackSign Format.binary64 b) = s
    rw [unpackExponent_packComponents, unpackMantissa_packComponents, unpack_packComponents]
    intro hvalid
    have hm : m.toNat < 2 ^ 52 := m.isLt
    have he : e.toNat < 2 ^ 11 := e.isLt
    split
    · next hinf =>
      subst hinf
      split
      · next hz =>
        subst hz
        rfl
      · next hz => exact (hvalid rfl hz).symm
    · next hinf =>
      have hinf : e.toNat ≠ 2047 := fun h => hinf (BitVec.eq_of_toNat_eq (by rw [h]; rfl))
      split
      · next hz =>
        subst hz
        split
        · next hz =>
          subst hz
          rfl
        · next hz =>
          have hpos : m.toNat ≠ 0 := fun h => hz (BitVec.eq_of_toNat_eq (by rw [h]; rfl))
          rw [pack_of_lt_lead s (Nat.pos_of_ne_zero hpos) hm, BitVec.ofNat_toNat, BitVec.setWidth_eq]
      · next hz =>
        have hbiased : ((e.toNat : ℤ) - 1075 + 1075).toNat = e.toNat := by omega
        rw [pack_of_lead s _ (by omega) (by omega) (by omega), hbiased]
        congr 1
        · exact BitVec.eq_of_toNat_eq (by rw [BitVec.toNat_ofNat]; exact Nat.mod_eq_of_lt he)
        · apply BitVec.eq_of_toNat_eq
          rw [BitVec.toNat_ofNat]
          change (2 ^ 52 + m.toNat) % 2 ^ 52 = m.toNat
          omega
  apply eq_of_toBits_eq
  change UInt64.ofBitVec (UnpackedFloat.pack Format.binary64
    (UnpackedFloat.unpack Format.binary64 x.toBits.toBitVec)) = x.toBits
  rw [hbits]

/-- Doubles with the same unpacked form are the same. -/
lemma eq_of_unpack_eq {x y : Float} (h : x.toModel.unpack = y.toModel.unpack) : x = y := by
  have hmodel : x.toModel = y.toModel := by rw [← pack_unpack x.toModel, h, pack_unpack]
  cases x
  cases y
  cases hmodel
  rfl

end Number

end Reckoner
