import Mathlib

/-! Values: every finite float is a whole number of units of 2^-1074, the smallest float above zero.
In these units the logical model of floats compares them as integers. -/

namespace MarchingDrill.Binary64

open Float.Model Float.Model.UnpackedFloat

/-- The units of 2^-1074 in an unpacked float. What is not finite counts as zero. -/
def units : UnpackedFloat → Int
  | .finite s m e _ => s.apply (m * 2 ^ (e + 1074).toNat : Nat)
  | _ => 0

theorem units_finite (s : Sign) (m : Nat) (e : Int) (h : 0 < m) :
    units (.finite s m e h) = s.apply (m * 2 ^ (e + 1074).toNat : Nat) := rfl

/-- An unpacked float in the form that the bits of a finite float have: 53 bits of mantissa, the
leading one set unless the exponent is least. -/
def Canonical : UnpackedFloat → Prop
  | .zero _ => True
  | .finite _ m e _ => m < 2 ^ 53 ∧ -1074 ≤ e ∧ e ≤ 971 ∧ (2 ^ 52 ≤ m ∨ e = -1074)
  | _ => False

theorem toNat_implicit_append (m : BitVec 52) : (1#1 ++ m).toNat = 2 ^ 52 + m.toNat := by
  rw [BitVec.toNat_append, ← Nat.shiftLeft_add_eq_or_of_lt m.isLt]
  rfl

theorem unpack_canonical {x : Float.Model} (h : x.isFinite = true) : Canonical x.unpack := by
  unfold Float.Model.isFinite at h
  unfold Float.Model.unpack UnpackedFloat.unpack at h ⊢
  have hm := (@unpackMantissa Format.binary64 x.toBits.toBitVec).isLt
  have he := (@unpackExponent Format.binary64 x.toBits.toBitVec).isLt
  have hbias : ((Format.binary64.exponentBias : Nat) : Int) = 1023 := rfl
  dsimp only at h hm he ⊢
  -- an exponent of ones alone is not finite, and one of zeros alone means no leading bit
  split at h
  · split at h <;> simp [UnpackedFloat.isFinite] at h
  · next hinf =>
    have hinf : (@unpackExponent Format.binary64 x.toBits.toBitVec).toNat ≠ 2047 :=
      fun heq => hinf (BitVec.eq_of_toNat_eq heq)
    rw [if_neg (by assumption)]
    split
    · next hsub =>
      split
      · trivial
      · refine ⟨by omega, ?_, ?_, .inr ?_⟩ <;> (rw [hsub]; decide)
    · next hnormal =>
      have hnormal : (@unpackExponent Format.binary64 x.toBits.toBitVec).toNat ≠ 0 :=
        fun heq => hnormal (BitVec.eq_of_toNat_eq heq)
      refine ⟨?_, ?_, ?_, .inl ?_⟩
      · rw [toNat_implicit_append]; omega
      · rw [hbias]; omega
      · rw [hbias]; omega
      · rw [toNat_implicit_append]; omega

@[simp]
theorem unpackSign_packComponents (s : Sign) (e : BitVec 11) (m : BitVec 52) :
    unpackSign (packComponents Format.binary64 s e m) = s.toBitVec := by
  change (s.toBitVec ++ e ++ m).extractLsb' 63 1 = s.toBitVec
  rw [BitVec.extractLsb'_append_eq_of_le (by decide),
    BitVec.extractLsb'_append_eq_of_le (by decide)]
  cases s <;> rfl

@[simp]
theorem ofBitVec_toBitVec (s : Sign) : Sign.ofBitVec s.toBitVec = s := by
  cases s <;> rfl

theorem unpack_packComponents_normal (s : Sign) {m : Nat} {e : Int} (hm : 2 ^ 52 ≤ m)
    (hm' : m < 2 ^ 53) (he : -1074 ≤ e) (he' : e ≤ 971) :
    UnpackedFloat.unpack Format.binary64 (packComponents Format.binary64 s
      (BitVec.ofNat 11 (e + 1075).toNat) (BitVec.ofNat 52 m)) = .finite s m e (by omega) := by
  have hexp : (BitVec.ofNat 11 (e + 1075).toNat).toNat = (e + 1075).toNat := by
    rw [BitVec.toNat_ofNat]
    omega
  have hinf : BitVec.ofNat 11 (e + 1075).toNat ≠ -1#11 := by
    intro h
    have : (e + 1075).toNat = 2047 := hexp.symm.trans (congrArg BitVec.toNat h)
    omega
  have hsub : BitVec.ofNat 11 (e + 1075).toNat ≠ 0#11 := by
    intro h
    have : (e + 1075).toNat = 0 := hexp.symm.trans (congrArg BitVec.toNat h)
    omega
  have hmant : (1#1 ++ BitVec.ofNat 52 m).toNat = m := by
    rw [toNat_implicit_append, BitVec.toNat_ofNat]
    omega
  have hbias : ((Format.binary64.exponentBias : Nat) : Int) = 1023 := rfl
  have hexponent : ((e + 1075).toNat : Int) - (1023 + (52 : Nat)) = e := by omega
  unfold UnpackedFloat.unpack
  simp only [unpackMantissa_packComponents, unpackExponent_packComponents,
    unpackSign_packComponents, ofBitVec_toBitVec]
  rw [if_neg hinf, if_neg hsub]
  simp only [hexp, hmant, hbias, hexponent]

theorem unpack_packComponents_subnormal (s : Sign) {m : Nat} (hpos : 0 < m) (hm : m < 2 ^ 52) :
    UnpackedFloat.unpack Format.binary64 (packComponents Format.binary64 s 0#11
      (BitVec.ofNat 52 m)) = .finite s m (-1074) hpos := by
  have hmant : (BitVec.ofNat 52 m).toNat = m := by
    rw [BitVec.toNat_ofNat, Nat.mod_eq_of_lt hm]
  have hne : BitVec.ofNat 52 m ≠ 0#52 := by
    intro h
    have : m = 0 := hmant.symm.trans (congrArg BitVec.toNat h)
    omega
  have hinf : (0#11) ≠ -1#11 := by decide
  unfold UnpackedFloat.unpack
  simp only [unpackMantissa_packComponents, unpackExponent_packComponents,
    unpackSign_packComponents, ofBitVec_toBitVec]
  rw [if_neg hinf, if_pos trivial, dif_neg hne]
  simp only [hmant]
  rfl

theorem unpack_pack {u : UnpackedFloat} (h : Canonical u) : (Float.Model.pack u).unpack = u := by
  change UnpackedFloat.unpack Format.binary64 (UnpackedFloat.pack Format.binary64 u) = u
  cases u with
  | infinity s | notANumber => cases h
  | zero s => cases s <;> rfl
  | finite s m e hpos =>
    obtain ⟨hm, he, he', hlead⟩ := h
    have hbiased : (e + Format.binary64.exponentBias + Format.binary64.mantissaBitsWithoutImplicit :
        Int).toNat = (e + 1075).toNat := by
      change (e + 1023 + 52).toNat = _
      omega
    have hfits : ¬2 ^ Format.binary64.exponentBits ≤ (e + 1075).toNat + 1 := by
      change ¬2048 ≤ _
      omega
    unfold UnpackedFloat.pack
    simp only [hbiased]
    rw [if_neg hfits]
    by_cases hnormal : 2 ^ 52 ≤ m
    · have hlog : m.log2 + 1 = Format.binary64.mantissaBits := by
        rw [(Nat.log2_eq_iff hpos.ne').mpr ⟨hnormal, hm⟩]
        rfl
      rw [if_pos hlog]
      exact unpack_packComponents_normal s hnormal hm he he'
    · have hlog : m.log2 + 1 ≠ Format.binary64.mantissaBits := by
        have hlt : m.log2 < 52 := (Nat.log2_lt hpos.ne').mpr (by omega)
        change m.log2 + 1 ≠ 53
        omega
      cases hlead.resolve_left hnormal
      rw [if_neg hlog]
      exact unpack_packComponents_subnormal s hpos (by omega)

theorem mantissa_lt_of_exponent_lt {m n : Nat} {d e : Int} (hm : m < 2 ^ 53) (hd : -1074 ≤ d)
    (hde : d < e) (hn : 2 ^ 52 ≤ n ∨ e = -1074) :
    m * 2 ^ (d + 1074).toNat < n * 2 ^ (e + 1074).toNat := by
  obtain ⟨k, hk⟩ : ∃ k, (e + 1074).toNat = (d + 1074).toNat + (k + 1) :=
    ⟨(e - d - 1).toNat, by omega⟩
  have hn : 2 ^ 52 ≤ n := hn.resolve_right (by omega)
  calc
    m * 2 ^ (d + 1074).toNat < 2 ^ 53 * 2 ^ (d + 1074).toNat :=
      Nat.mul_lt_mul_of_pos_right hm (Nat.two_pow_pos _)
    _ = 2 ^ 52 * 2 * 2 ^ (d + 1074).toNat := by norm_num
    _ ≤ n * 2 ^ (k + 1) * 2 ^ (d + 1074).toNat := by
      refine Nat.mul_le_mul_right _ (Nat.mul_le_mul hn ?_)
      rw [Nat.pow_succ]
      exact Nat.le_mul_of_pos_left 2 (Nat.two_pow_pos k)
    _ = n * 2 ^ (e + 1074).toNat := by rw [hk, Nat.pow_add _ _ (k + 1)]; ring

theorem compare_magnitude {s s' : Sign} {m n : Nat} {d e : Int} {hm : 0 < m} {hn : 0 < n}
    (hc : Canonical (.finite s m d hm)) (hc' : Canonical (.finite s' n e hn)) :
    (compare d e).then (compare m n) =
      compare (m * 2 ^ (d + 1074).toNat) (n * 2 ^ (e + 1074).toNat) := by
  obtain ⟨hm, hd, -, hlead⟩ := hc
  obtain ⟨hn, he, -, hlead'⟩ := hc'
  rcases lt_trichotomy d e with h | rfl | h
  · rw [compare_lt_iff_lt.mpr h, compare_lt_iff_lt.mpr (mantissa_lt_of_exponent_lt hm hd h hlead')]
    rfl
  · have hpos : 0 < 2 ^ (d + 1074).toNat := Nat.two_pow_pos _
    rw [compare_eq_iff_eq.mpr rfl]
    rcases lt_trichotomy m n with hmn | rfl | hmn
    · rw [compare_lt_iff_lt.mpr hmn, compare_lt_iff_lt.mpr (Nat.mul_lt_mul_of_pos_right hmn hpos)]
      rfl
    · rw [compare_eq_iff_eq.mpr rfl, compare_eq_iff_eq.mpr rfl]
      rfl
    · rw [compare_gt_iff_gt.mpr hmn, compare_gt_iff_gt.mpr (Nat.mul_lt_mul_of_pos_right hmn hpos)]
      rfl
  · rw [compare_gt_iff_gt.mpr h, compare_gt_iff_gt.mpr (mantissa_lt_of_exponent_lt hn he h hlead)]
    rfl

theorem compare_natCast (a b : Nat) : compare (a : Int) (b : Int) = compare a b := by
  simp only [Int.compare_eq_ite_lt, Nat.compare_eq_ite_lt, Int.ofNat_lt]

theorem compare_neg (a b : Int) : compare (-a) (-b) = compare b a := by
  simp only [Int.compare_eq_ite_lt, Int.neg_lt_neg_iff]

theorem compare_eq {u v : UnpackedFloat} (hu : Canonical u) (hv : Canonical v) :
    u.compare v = some (compare (units u) (units v)) := by
  have hpos : ∀ {m : Nat} (k : Nat), 0 < m → (0 : Int) < (m * 2 ^ k : Nat) := by
    intro m k hm
    exact Int.natCast_pos.mpr (Nat.mul_pos hm (Nat.two_pow_pos k))
  cases u with
  | infinity | notANumber => cases hu
  | zero s =>
    cases v with
    | infinity | notANumber => cases hv
    | zero s' => simp [UnpackedFloat.compare, units]
    | finite s' n e hn =>
      have h := hpos (e + 1074).toNat hn
      cases s' <;> simp only [UnpackedFloat.compare, units, Sign.apply, Option.some.injEq]
      · exact (compare_gt_iff_gt.mpr (by omega)).symm
      · exact (compare_lt_iff_lt.mpr h).symm
  | finite s m d hm =>
    have h := hpos (d + 1074).toNat hm
    cases v with
    | infinity | notANumber => cases hv
    | zero s' =>
      cases s <;> simp only [UnpackedFloat.compare, units, Sign.apply, Option.some.injEq]
      · exact (compare_lt_iff_lt.mpr (by omega)).symm
      · exact (compare_gt_iff_gt.mpr h).symm
    | finite s' n e hn =>
      have h' := hpos (e + 1074).toNat hn
      cases s <;> cases s' <;>
        simp only [UnpackedFloat.compare, units, Sign.apply, Option.some.injEq,
          compare_magnitude hu hv]
      · rw [compare_neg, Nat.compare_swap]
        exact (compare_natCast _ _).symm
      · exact (compare_lt_iff_lt.mpr (by omega)).symm
      · exact (compare_gt_iff_gt.mpr (by omega)).symm
      · exact (compare_natCast _ _).symm

def value (x : Float) : Int := units x.toModel.unpack

section Order

variable {x y : Float}

theorem lt_iff_unpack : x < y ↔ x.toModel.unpack.compare y.toModel.unpack = some .lt := by
  change decide (x.toModel < y.toModel) = true ↔ _
  rw [decide_eq_true_iff]
  exact beq_iff_eq

theorem le_iff_unpack :
    x ≤ y ↔ (x.toModel.unpack.compare y.toModel.unpack).any Ordering.isLE = true := by
  change decide (x.toModel ≤ y.toModel) = true ↔ _
  rw [decide_eq_true_iff]
  exact Iff.rfl

theorem lt_iff (hx : x.isFinite = true) (hy : y.isFinite = true) : x < y ↔ value x < value y := by
  rw [lt_iff_unpack, compare_eq (unpack_canonical hx) (unpack_canonical hy), Option.some.injEq]
  exact Int.compare_eq_lt

theorem le_iff (hx : x.isFinite = true) (hy : y.isFinite = true) : x ≤ y ↔ value x ≤ value y := by
  rw [le_iff_unpack, compare_eq (unpack_canonical hx) (unpack_canonical hy)]
  exact Int.isLE_compare

theorem isNaN_eq_false (hx : x.isFinite = true) : x.isNaN = false := by
  change x.toModel.unpack.isNaN = false
  change x.toModel.unpack.isFinite = true at hx
  cases h : x.toModel.unpack <;> simp_all [UnpackedFloat.isNaN, UnpackedFloat.isFinite]

theorem isFinite_of_le_of_le {z : Float} (hx : x.isFinite = true) (hz : z.isFinite = true)
    (hxy : x ≤ y) (hyz : y ≤ z) : y.isFinite = true := by
  rw [le_iff_unpack] at hxy hyz
  have hx := unpack_canonical hx
  have hz := unpack_canonical hz
  change y.toModel.unpack.isFinite = true
  cases hy : y.toModel.unpack with
  | zero | finite => rfl
  | notANumber =>
    rw [hy] at hyz
    cases hyz
  | infinity s =>
    rw [hy] at hxy hyz
    cases s with
    | positive =>
      cases h : z.toModel.unpack <;> rw [h] at hyz hz
      · cases hz
      · cases hz
      · cases hyz
      · cases hyz
    | negative =>
      cases h : x.toModel.unpack with
      | infinity | notANumber =>
        rw [h] at hx
        cases hx
      | zero | finite =>
        rw [h] at hxy
        cases hxy

end Order

end MarchingDrill.Binary64
