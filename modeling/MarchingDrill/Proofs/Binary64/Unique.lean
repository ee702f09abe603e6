import MarchingDrill.Proofs.Binary64.Arithmetic

/-! Unique forms: a finite float has only one bit pattern, and away from zero its units alone tell
it from all others. -/

namespace MarchingDrill.Binary64

open Float.Model Float.Model.UnpackedFloat

theorem toBitVec_ofBitVec (b : BitVec 1) : (Sign.ofBitVec b).toBitVec = b := by
  revert b
  decide

theorem ofNat_implicit_append (m : BitVec 52) : BitVec.ofNat 52 (1#1 ++ m).toNat = m := by
  apply BitVec.eq_of_toNat_eq
  rw [BitVec.toNat_ofNat, toNat_implicit_append, Nat.add_mod_left, Nat.mod_eq_of_lt m.isLt]

section Bits

variable (b : BitVec 64)

theorem packComponents_unpack :
    packComponents Format.binary64 (Sign.ofBitVec (@unpackSign Format.binary64 b))
      (@unpackExponent Format.binary64 b) (@unpackMantissa Format.binary64 b) = b := by
  unfold packComponents
  rw [toBitVec_ofBitVec]
  change (b.extractLsb' 63 1 ++ b.extractLsb' 52 11) ++ b.extractLsb' 0 52 = b
  rw [BitVec.extractLsb'_append_extractLsb'_eq_extractLsb' (by decide),
    BitVec.extractLsb'_append_extractLsb'_eq_extractLsb' (by decide)]
  exact BitVec.extractLsb'_eq_self

theorem pack_unpack_bits (h : @unpackExponent Format.binary64 b ≠ -1#11) :
    UnpackedFloat.pack Format.binary64 (UnpackedFloat.unpack Format.binary64 b) = b := by
  have hparts := packComponents_unpack b
  have hm : (@unpackMantissa Format.binary64 b).toNat < 2 ^ 52 :=
    (@unpackMantissa Format.binary64 b).isLt
  have he : (@unpackExponent Format.binary64 b).toNat < 2048 :=
    (@unpackExponent Format.binary64 b).isLt
  have hinf : (@unpackExponent Format.binary64 b).toNat ≠ 2047 :=
    fun heq => h (BitVec.eq_of_toNat_eq heq)
  unfold UnpackedFloat.unpack
  dsimp only
  rw [if_neg h]
  by_cases hsub : @unpackExponent Format.binary64 b = 0#11
  · rw [if_pos hsub]
    rw [hsub] at hparts
    by_cases hzero : @unpackMantissa Format.binary64 b = 0#52
    · rw [dif_pos hzero]
      rw [hzero] at hparts
      exact hparts
    · have hlog : (@unpackMantissa Format.binary64 b).toNat.log2 + 1 ≠
          Format.binary64.mantissaBits := by
        have hlt := (Nat.log2_lt fun h0 => hzero (BitVec.eq_of_toNat_eq h0)).mpr hm
        change _ ≠ 53
        omega
      rw [dif_neg hzero, UnpackedFloat.pack]
      dsimp only
      rw [if_neg (by rw [hsub]; decide), if_neg hlog, BitVec.ofNat_toNat, BitVec.setWidth_eq]
      exact hparts
  · have hlog : (1#1 ++ @unpackMantissa Format.binary64 b).toNat.log2 + 1 =
        Format.binary64.mantissaBits := by
      rw [toNat_implicit_append, (Nat.log2_eq_iff (by omega)).mpr ⟨Nat.le_add_right _ _, by omega⟩]
      rfl
    have hbiased : ((@unpackExponent Format.binary64 b).toNat -
        ((Format.binary64.exponentBias : Int) + Format.binary64.mantissaBitsWithoutImplicit) +
        Format.binary64.exponentBias + Format.binary64.mantissaBitsWithoutImplicit : Int).toNat =
        (@unpackExponent Format.binary64 b).toNat := by
      omega
    have hfits : ¬2 ^ Format.binary64.exponentBits ≤
        (@unpackExponent Format.binary64 b).toNat + 1 := by
      change ¬2048 ≤ _
      omega
    rw [if_neg hsub, UnpackedFloat.pack]
    dsimp only
    rw [hbiased, if_neg hfits, if_pos hlog, BitVec.ofNat_toNat, BitVec.setWidth_eq,
      ofNat_implicit_append]
    exact hparts

end Bits

theorem Canonical.eq_of_units_eq {u v : UnpackedFloat} (hu : Canonical u) (hv : Canonical v)
    (h : units u = units v) (hne : units u ≠ 0) : u = v := by
  cases u with
  | infinity | notANumber => cases hu
  | zero => exact absurd rfl hne
  | finite s m d hm =>
    cases v with
    | infinity | notANumber => cases hv
    | zero => exact absurd h hne
    | finite s' n e hn =>
      have hmpos : 0 < m * 2 ^ (d + 1074).toNat := Nat.mul_pos hm (Nat.two_pow_pos _)
      have hnpos : 0 < n * 2 ^ (e + 1074).toNat := Nat.mul_pos hn (Nat.two_pow_pos _)
      rw [units_finite, units_finite] at h
      obtain ⟨rfl, hmag⟩ : s = s' ∧ m * 2 ^ (d + 1074).toNat = n * 2 ^ (e + 1074).toNat := by
        cases s <;> cases s' <;> simp only [Sign.apply] at h <;>
          first | exact ⟨rfl, by omega⟩ | omega
      obtain ⟨hmlt, hd, -, hlead⟩ := hu
      obtain ⟨hnlt, he, -, hlead'⟩ := hv
      rcases lt_trichotomy d e with hlt | rfl | hlt
      · exact absurd hmag (mantissa_lt_of_exponent_lt hmlt hd hlt hlead').ne
      · cases Nat.eq_of_mul_eq_mul_right (Nat.two_pow_pos _) hmag
        rfl
      · exact absurd hmag (mantissa_lt_of_exponent_lt hnlt he hlt hlead).ne'

section Float

variable {x y : Float}

theorem ofModel_pack_unpack (hx : x.isFinite = true) :
    Float.ofModel (Float.Model.pack x.toModel.unpack) = x := by
  rcases x with ⟨bits, hvalid⟩
  have hexp : @unpackExponent Format.binary64 bits.toBitVec ≠ -1#11 := by
    intro h
    change (UnpackedFloat.unpack Format.binary64 bits.toBitVec).isFinite = true at hx
    unfold UnpackedFloat.unpack at hx
    dsimp only at hx
    rw [if_pos h] at hx
    split at hx <;> cases hx
  have hbits := pack_unpack_bits bits.toBitVec hexp
  unfold Float.Model.pack Float.Model.unpack
  simp only [hbits]

theorem eq_of_unpack_eq (hx : x.isFinite = true) (h : y.toModel.unpack = x.toModel.unpack) :
    y = x := by
  have hy : y.isFinite = true := by
    change y.toModel.unpack.isFinite = true
    rw [h]
    exact hx
  rw [← ofModel_pack_unpack hx, ← ofModel_pack_unpack hy, h]

theorem eq_of_value_eq (hx : x.isFinite = true) (hy : y.isFinite = true)
    (h : value x = value y) (hne : value x ≠ 0) : x = y :=
  eq_of_unpack_eq hy ((unpack_canonical hx).eq_of_units_eq (unpack_canonical hy) h hne)

theorem sub_zero (hx : x.isFinite = true) : x - (0 : UInt32).toFloat = x := by
  have hcanonical := unpack_canonical hx
  have hzero : (0 : UInt32).toFloat.toModel.unpack = .zero .positive := rfl
  have hsub : x.toModel.unpack.sub Format.binary64 (.zero .positive) = x.toModel.unpack := by
    cases h : x.toModel.unpack with
    | infinity | notANumber =>
      rw [h] at hcanonical
      cases hcanonical
    | zero s => cases s <;> rfl
    | finite => rfl
  change Float.ofModel (Float.Model.pack
    (x.toModel.unpack.sub Format.binary64 (0 : UInt32).toFloat.toModel.unpack)) = x
  rw [hzero, hsub, ofModel_pack_unpack hx]

end Float

end MarchingDrill.Binary64
