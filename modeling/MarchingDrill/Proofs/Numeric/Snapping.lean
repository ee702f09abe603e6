import MarchingDrill.Proofs.Binary64.Nearness
import MarchingDrill.Proofs.Numeric.Whole

/-! Snapping on either side of zero: the nearest whole number is off by no more than a half,
snapping moves a number by no more than its width and makes a whole number of all that is nearer to
one, and counting up goes to the next whole number unless counts do not reach it. -/

namespace MarchingDrill.Numeric

open Binary64 Float.Model

theorem number_snapWidth : number snapWidth = 4835703278458517 / 2 ^ 82 := by
  have hslack : (slackUnits : ℚ) = 4835703278458517 * 2 ^ 992 := by
    rw [slackUnits_eq, Nat.cast_mul, Nat.cast_pow]
    rfl
  have hone : (one : ℚ) = 2 ^ 82 * 2 ^ 992 := by
    rw [one_eq, ← pow_add, Nat.cast_pow]
    rfl
  rw [number, value_snapWidth.2, Int.cast_natCast, hslack, hone,
    mul_div_mul_right _ _ (by positivity)]

section Value

variable {x : Float}

theorem lt_zero_iff (hx : x.isFinite = true) : x < 0 ↔ value x < 0 := by
  have hzero := value_toFloat 0
  have h0 : (0 : Float) = (0 : UInt32).toFloat := rfl
  rw [h0, lt_iff hx hzero.1, hzero.2]
  simp

theorem fits_whole {k : Int} (h : |k| ≤ 2 ^ 53) : Fits (k * one).natAbs := by
  rw [Int.abs_eq_natAbs] at h
  refine ⟨k.natAbs, 1074, by omega, ?_⟩
  rw [Int.natAbs_mul, Int.natAbs_natCast, one_eq]

theorem log2_whole_lt {k : Int} (h : |k| ≤ 2 ^ 53) : (k * one).natAbs.log2 < 2097 := by
  rw [Int.abs_eq_natAbs] at h
  rw [Int.natAbs_mul, Int.natAbs_natCast]
  exact log2_lt_of_natAbs_le (Nat.mul_le_mul_right one (by omega))

theorem value_whole_step {w : Float} (hw : w.isFinite = true) {q : Int} (hq : value w = q * one)
    (hlt : |q| < 2 ^ 53) :
    ((w - 1).isFinite = true ∧ value (w - 1) = (q - 1) * one) ∧
      (w + 1).isFinite = true ∧ value (w + 1) = (q + 1) * one := by
  obtain ⟨hone, hone'⟩ := value_toFloat 1
  rw [UInt32.toNat_one, Nat.one_mul] at hone'
  rw [abs_lt] at hlt
  have hback : |q - 1| ≤ 2 ^ 53 := abs_le.mpr (by omega)
  have hforth : |q + 1| ≤ 2 ^ 53 := abs_le.mpr (by omega)
  have hsub := value_sub hw hone
  have hadd := value_add hw hone
  rw [hq, hone', ← sub_one_mul] at hsub
  rw [hq, hone', ← add_one_mul] at hadd
  obtain ⟨hsub, hsub'⟩ := hsub (log2_whole_lt hback)
  obtain ⟨hadd, hadd'⟩ := hadd (log2_whole_lt hforth)
  exact ⟨⟨hsub, hsub'.eq_of_fits (fits_whole hback)⟩, hadd, hadd'.eq_of_fits (fits_whole hforth)⟩

section Small

variable (hx : x.isFinite = true) (hlt : |value x| < (2 ^ 53 * one : Nat))
include hx hlt

theorem exists_wholePart : (wholePart x).isFinite = true ∧ ∃ q : Int,
    value (wholePart x) = q * one ∧ |q| < 2 ^ 53 ∧ |value x - q * one| < one ∧
      (x < 0 → value x ≤ q * one ∧ q ≤ 0) ∧ (¬x < 0 → q * one ≤ value x ∧ 0 ≤ q) := by
  obtain ⟨hfinite, hvalue⟩ := value_abs hx
  have hpos : 0 ≤ |value x| := abs_nonneg _
  have hcut := toNat_toUInt64 hfinite (hvalue ▸ hpos) (hvalue ▸ hlt)
  rw [hvalue] at hcut
  have hsmall : |value x|.toNat / one < 2 ^ 53 :=
    Nat.div_lt_of_lt_mul (by rw [Nat.mul_comm]; omega)
  have hfloor : |value x|.toNat / one * one ≤ |value x|.toNat := Nat.div_mul_le_self _ _
  have hceil : |value x|.toNat < |value x|.toNat / one * one + one :=
    Nat.lt_div_mul_add one_units_pos
  obtain ⟨hwhole, hunits⟩ : (x.abs.toUInt64.toFloat).isFinite = true ∧
      value x.abs.toUInt64.toFloat = (x.abs.toUInt64.toNat * one : Nat) :=
    value_ofModel_normalize (hcut ▸ hsmall.le)
  rw [hcut] at hunits
  generalize |value x|.toNat / one = n at *
  have hbelow : x.abs < 9007199254740992 := by
    rw [abs_lt_iff hx value_wholeFrom.1, value_wholeFrom.2]
    exact hlt
  unfold wholePart
  rw [if_pos hbelow]
  split
  · next hneg =>
    have hx0 := (lt_zero_iff hx).mp hneg
    rw [abs_of_neg hx0] at hfloor hceil
    obtain ⟨hfinite', hvalue'⟩ := value_neg hwhole
    have hq : value (-x.abs.toUInt64.toFloat) = -(n : Int) * one := by
      rw [hvalue', hunits, Nat.cast_mul, Int.neg_mul]
    refine ⟨hfinite', -n, hq, ?_, ?_, fun _ => ⟨?_, by omega⟩, fun h => absurd hneg h⟩
    · rw [abs_neg, Nat.abs_cast]
      exact_mod_cast hsmall
    · rw [Int.neg_mul, abs_lt]
      omega
    · rw [Int.neg_mul]
      omega
  · next hnonneg =>
    have hx0 : 0 ≤ value x := Int.not_lt.mp fun h => hnonneg ((lt_zero_iff hx).mpr h)
    rw [abs_of_nonneg hx0] at hfloor hceil
    refine ⟨hwhole, n, by rw [hunits, Nat.cast_mul], ?_, ?_, fun h => absurd h hnonneg,
      fun _ => ⟨by omega, by omega⟩⟩
    · rw [Nat.abs_cast]
      exact_mod_cast hsmall
    · rw [abs_lt]
      omega

theorem fits_sub_whole {q : Int} (hle : (value x - q * one).natAbs ≤ (value x).natAbs) :
    Fits (value x - q * one).natAbs := by
  rw [Int.abs_eq_natAbs] at hlt
  have hspacing : spacing (value x).natAbs ≤ 1074 := by
    rcases eq_or_ne (value x).natAbs 0 with h0 | hne
    · rw [h0]
      decide
    · obtain ⟨i, hi, hi1074⟩ : ∃ i : Nat, one = 2 ^ i ∧ i = 1074 := ⟨1074, one_eq, rfl⟩
      have hlog : (value x).natAbs.log2 < 53 + i := by
        rw [Nat.log2_lt hne, Nat.pow_add, ← hi]
        omega
      unfold spacing
      omega
  have hself : 2 ^ spacing (value x).natAbs ∣ (value x).natAbs :=
    (fits_value hx).dvd (Nat.le_refl _)
  refine Fits.of_dvd (Int.natCast_dvd.mp (dvd_sub (Int.natCast_dvd.mpr hself) ?_)) hle
  exact dvd_mul_of_dvd_right (Int.natCast_dvd_natCast.mpr (two_pow_dvd_one hspacing)) q

theorem exists_nearestWhole : (nearestWhole x).isFinite = true ∧ ∃ k : Int,
    value (nearestWhole x) = k * one ∧ 2 * |value x - k * one| ≤ one := by
  obtain ⟨hfinite, q, hq, hq53, hrest, hneg, hnonneg⟩ := exists_wholePart hx hlt
  have hfits : Fits (value x - q * one).natAbs := by
    refine fits_sub_whole hx hlt ?_
    by_cases hx0 : x < 0
    · have := hneg hx0
      have hq0 : q * one ≤ 0 := Int.mul_nonpos_of_nonpos_of_nonneg this.2 (Int.natCast_nonneg _)
      omega
    · have := hnonneg hx0
      have hq0 : 0 ≤ q * one := Int.mul_nonneg this.2 (Int.natCast_nonneg _)
      omega
  obtain ⟨hdiff, hrounds⟩ := value_sub hx hfinite (by
    rw [hq]
    refine log2_lt_of_natAbs_le ?_
    rw [Int.abs_eq_natAbs] at hrest
    omega)
  rw [hq] at hrounds
  have hexact := hrounds.eq_of_fits hfits
  have hhalf := value_half.2
  have hcut : (x - wholePart x).abs < 0.5 ↔ 2 * |value x - q * one| < one := by
    rw [abs_lt_iff hdiff value_half.1, hexact]
    omega
  unfold nearestWhole
  dsimp only
  split
  · next hnear => exact ⟨hfinite, q, hq, (hcut.mp hnear).le⟩
  · next hfar =>
    rw [hcut] at hfar
    obtain ⟨hback, hforth⟩ := value_whole_step hfinite hq hq53
    -- a step away from zero leads past the number
    split
    · next hx0 =>
      refine ⟨hback.1, q - 1, hback.2, ?_⟩
      have := hneg hx0
      rw [abs_of_nonpos (by omega)] at hfar hrest
      rw [sub_one_mul, abs_of_nonneg (by omega)]
      omega
    · next hx0 =>
      refine ⟨hforth.1, q + 1, hforth.2, ?_⟩
      have := hnonneg hx0
      rw [abs_of_nonneg (by omega)] at hfar hrest
      rw [add_one_mul, abs_of_nonpos (by omega)]
      omega

end Small

theorem abs_value_lt_iff : |value x| < (2 ^ 53 * one : Nat) ↔ |number x| < 2 ^ 53 := by
  rw [number, abs_div, abs_of_pos one_cast_pos, div_lt_iff₀ one_cast_pos]
  exact_mod_cast Iff.rfl

theorem approximates_sub_nearestWhole (hx : x.isFinite = true) (hlt : |number x| < 2 ^ 53) :
    ∃ k : Int, number (nearestWhole x) = k ∧ |number x - k| ≤ 1 / 2 ∧
      (nearestWhole x).isFinite = true ∧ Approximates (x - nearestWhole x) (number x - k) := by
  obtain ⟨hfinite, k, hk, hhalf⟩ := exists_nearestWhole hx (abs_value_lt_iff.mpr hlt)
  have hnumber : number (nearestWhole x) = k := number_eq_of_value hk
  have hnear : |number x - k| ≤ 1 / 2 := by
    have hcast : (2 : ℚ) * |(value x : ℚ) - k * one| ≤ one := by exact_mod_cast hhalf
    rw [← number_mul_one, ← sub_mul, abs_mul, abs_of_pos one_cast_pos, ← mul_assoc] at hcast
    have := (mul_le_iff_le_one_left one_cast_pos).mp hcast
    linarith
  refine ⟨k, hnumber, hnear, hfinite, ?_⟩
  rw [← hnumber] at hnear ⊢
  exact approximates_sub hx hfinite (hnear.trans (by norm_num))

theorem number_add_zero (hx : x.isFinite = true) : number (x + 0) = number x := by
  rw [number, number, (value_add_zero hx).2]

theorem abs_lt_snapWidth_iff (hx : x.isFinite = true) :
    x.abs < snapWidth ↔ |number x| < 4835703278458517 / 2 ^ 82 := by
  obtain ⟨hfinite, habs⟩ := number_abs hx
  rw [number_lt_iff hfinite value_snapWidth.1, habs, number_snapWidth]

theorem abs_snap_sub_le (hx : x.isFinite = true) :
    |number (snap x) - number x| ≤ 1001 / 10 ^ 12 := by
  rcases lt_or_ge |number x| (2 ^ 53) with hlt | hge
  · obtain ⟨k, hk, -, hfinite, hdiff, hclose, -⟩ := approximates_sub_nearestWhole hx hlt
    unfold snap
    dsimp only
    split
    · next hsnap =>
      rw [abs_lt_snapWidth_iff hdiff] at hsnap
      rw [number_add_zero hfinite, hk, abs_sub_comm]
      have htriangle := abs_sub_abs_le_abs_sub (number x - k) (number (x - nearestWhole x))
      rw [abs_sub_comm (number x - k)] at htriangle
      norm_num at hsnap hclose ⊢
      linarith
    · rw [sub_self, abs_zero]
      norm_num
  · have hunits : (2 ^ 53 * one : Nat) ≤ |value x| :=
      not_lt.mp (abs_value_lt_iff.not.mpr (not_lt.mpr hge))
    have hsame : number (snap x) = number x := by
      unfold snap
      rw [nearestWhole_eq_self hx hunits]
      dsimp only
      split
      · exact number_add_zero hx
      · rfl
    rw [hsame, sub_self, abs_zero]
    norm_num

theorem number_snap_of_near (hx : x.isFinite = true) {k : Int} (hk : |(k : ℚ)| ≤ 2 ^ 52)
    (h : |number x - k| ≤ 999 / 10 ^ 12) : number (snap x) = k := by
  have hlt : |number x| < 2 ^ 53 := by
    have := abs_sub_abs_le_abs_sub (number x) k
    norm_num at h hk ⊢
    linarith
  obtain ⟨n, hn, hhalf, hfinite, hdiff, hclose, -⟩ := approximates_sub_nearestWhole hx hlt
  obtain rfl : n = k := by
    have hapart : |(n : ℚ) - k| < 1 := by
      have := abs_sub_le (n : ℚ) (number x) k
      rw [abs_sub_comm] at hhalf
      norm_num at h
      linarith
    have hint : |n - k| < 1 := by exact_mod_cast hapart
    have := Int.abs_lt_one_iff.mp hint
    omega
  have hsnap : (x - nearestWhole x).abs < snapWidth := by
    rw [abs_lt_snapWidth_iff hdiff]
    have := abs_sub_abs_le_abs_sub (number (x - nearestWhole x)) (number x - n)
    norm_num at h hclose ⊢
    linarith
  unfold snap
  dsimp only
  rw [if_pos hsnap, number_add_zero hfinite, hn]

theorem toNat_countUp_eq_ceil (hx : x.isFinite = true) (hpos : 0 ≤ value x) :
    (countUp x).toNat = min ⌈number x⌉₊ (2 ^ 32 - 1) := by
  rw [toNat_countUp_of_nonneg hx hpos]
  congr 1
  refine eq_of_forall_ge_iff fun n => ?_
  have hunits : number x * one = (value x).toNat := by
    rw [number_mul_one]
    exact_mod_cast (Int.toNat_of_nonneg hpos).symm
  rw [ceilDiv_le_iff_le_mul one_units_pos, Nat.ceil_le, ← mul_le_mul_iff_left₀ one_cast_pos, hunits,
    mul_comm one n]
  exact_mod_cast Iff.rfl

end Value

end MarchingDrill.Numeric
