import MarchingDrill.Numeric.Whole
import MarchingDrill.Proofs.Binary64.Scaling
import MarchingDrill.Proofs.Binary64.Unique

/-! Whole numbers among the floats, in units. Snapping leaves nothing between zero and its own
width, keeps whole numbers, and counting up makes at least one of all that is left. -/

namespace MarchingDrill.Numeric

open Binary64 Float.Model

theorem value_snapWidth : snapWidth.isFinite = true ∧ value snapWidth = slackUnits := value_slack

theorem fits_slackUnits : Fits slackUnits := by
  have hfits := fits_value value_slack.1
  rwa [value_slack.2] at hfits

theorem two_pow_le_slackUnits : 2 ^ 106 ≤ slackUnits := by
  have hle : ∀ m k : Nat, 0 < m → 106 ≤ k → 2 ^ 106 ≤ m * 2 ^ k := fun m k hm hk =>
    (Nat.pow_le_pow_right Nat.two_pos hk).trans (Nat.le_mul_of_pos_left _ hm)
  rw [slackUnits_eq]
  exact hle _ _ (by decide) (by decide)

theorem log2_lt_of_natAbs_le {n : Nat} (h : n ≤ 2 ^ 53 * one) : n.log2 < 2097 := by
  rw [one_eq] at h
  exact Nat.lt_of_le_of_lt (log2_le_of_le h) (by decide)

theorem value_wholeFrom :
    (9007199254740992 : Float).isFinite = true ∧ value 9007199254740992 = (2 ^ 53 * one : Nat) := by
  have hunpack : (9007199254740992 : Float).toModel.unpack =
      .finite .positive (2 ^ 52) 1 (by decide) := rfl
  have hexp : (1 + 1074 : Int).toNat = 1074 + 1 := rfl
  have hdouble : ∀ k : Nat, 2 ^ 52 * 2 ^ (k + 1) = 2 ^ 53 * 2 ^ k := by
    intro k
    ring
  refine ⟨rfl, ?_⟩
  rw [value, hunpack, units_finite, hexp, hdouble, ← one_eq, UnpackedFloat.Sign.apply]

theorem value_half : (0.5 : Float).isFinite = true ∧ 2 * value 0.5 = one := by
  have hunpack : (0.5 : Float).toModel.unpack =
      .finite .positive (2 ^ 52) (-53) (by decide) := rfl
  obtain ⟨k, hk, hsum⟩ : ∃ k : Nat, (-53 + 1074 : Int).toNat = k ∧ 1074 = 53 + k :=
    ⟨1021, rfl, rfl⟩
  refine ⟨rfl, ?_⟩
  rw [value, hunpack, units_finite, hk, one_eq, hsum, UnpackedFloat.Sign.apply]
  push_cast
  ring

theorem beq_iff {x y : Float} (hx : x.isFinite = true) (hy : y.isFinite = true) :
    (x == y) = true ↔ value x = value y := by
  change (x.toModel.unpack.compare y.toModel.unpack == some .eq) = true ↔ _
  rw [compare_eq (unpack_canonical hx) (unpack_canonical hy), beq_iff_eq, Option.some.injEq]
  exact compare_eq_iff_eq

section Value

variable {x : Float}

theorem value_add_zero (hx : x.isFinite = true) :
    (x + 0).isFinite = true ∧ value (x + 0) = value x := by
  have hcanonical := unpack_canonical hx
  have hzero : (0 : Float).toModel.unpack = .zero .positive := rfl
  have hsum : Canonical (x.toModel.unpack.add Format.binary64 (0 : Float).toModel.unpack) ∧
      units (x.toModel.unpack.add Format.binary64 (0 : Float).toModel.unpack) = value x := by
    rw [hzero]
    unfold value
    cases h : x.toModel.unpack with
    | infinity | notANumber =>
      rw [h] at hcanonical
      cases hcanonical
    | zero s => cases s <;> exact ⟨trivial, rfl⟩
    | finite s m e hm =>
      rw [h] at hcanonical
      exact ⟨hcanonical, rfl⟩
  obtain ⟨hfinite, hvalue⟩ := ofModel_pack hsum.1
  exact ⟨hfinite, hvalue.trans hsum.2⟩

theorem abs_lt_iff {y : Float} (hx : x.isFinite = true) (hy : y.isFinite = true) :
    x.abs < y ↔ |value x| < value y := by
  obtain ⟨hfinite, hvalue⟩ := value_abs hx
  rw [lt_iff hfinite hy, hvalue]

theorem not_lt_zero (hpos : 0 ≤ value x) (hx : x.isFinite = true) : ¬x < 0 := by
  have hzero := value_toFloat 0
  have h0 : (0 : Float) = (0 : UInt32).toFloat := rfl
  rw [h0, lt_iff hx hzero.1, hzero.2]
  simpa using hpos

theorem value_wholePart (hx : x.isFinite = true) (hpos : 0 ≤ value x)
    (hlt : value x < (2 ^ 53 * one : Nat)) : (wholePart x).isFinite = true ∧
      value (wholePart x) = ((value x).toNat / one * one : Nat) := by
  obtain ⟨hfinite, hvalue⟩ := value_abs hx
  rw [abs_of_nonneg hpos] at hvalue
  have hsmall : (value x).toNat / one < 2 ^ 53 :=
    Nat.div_lt_of_lt_mul (by rw [Nat.mul_comm]; omega)
  have hcut := toNat_toUInt64 hfinite (hvalue ▸ hpos) (hvalue ▸ hlt)
  rw [hvalue] at hcut
  unfold wholePart
  rw [if_pos, if_neg (not_lt_zero hpos hx), ← hcut]
  · exact value_ofModel_normalize (hcut ▸ hsmall.le)
  · rw [lt_iff hfinite value_wholeFrom.1, value_wholeFrom.2, hvalue]
    exact hlt

theorem wholePart_eq_self (h : AtLeast (2 ^ 53 * one) x) : wholePart x = x := by
  unfold wholePart
  rw [if_neg]
  cases h with
  | infinite top =>
    rw [lt_iff_unpack, unpack_abs_of_infinite top]
    exact fun h => by cases h
  | finite hx le =>
    rw [abs_lt_iff hx value_wholeFrom.1, value_wholeFrom.2, abs_of_nonneg (by omega)]
    omega

section Small

variable (hx : x.isFinite = true) (hpos : 0 ≤ value x) (hlt : value x < (2 ^ 53 * one : Nat))
include hpos hlt

theorem wholeUnits_lt : (value x).toNat / one < 2 ^ 53 :=
  Nat.div_lt_of_lt_mul (by rw [Nat.mul_comm]; omega)

include hx

theorem value_wholePart_add_one : (wholePart x + 1).isFinite = true ∧
    value (wholePart x + 1) = (((value x).toNat / one + 1) * one : Nat) := by
  obtain ⟨hfinite, hvalue⟩ := value_wholePart hx hpos hlt
  obtain ⟨hone, hone'⟩ := value_toFloat 1
  have hsmall := Nat.succ_le_of_lt (wholeUnits_lt hpos hlt)
  have hsum : value (wholePart x) + value (1 : UInt32).toFloat =
      (((value x).toNat / one + 1) * one : Nat) := by
    rw [hvalue, hone', Nat.succ_mul, UInt32.toNat_one, Nat.one_mul, Nat.cast_add]
  have hspec := value_add hfinite hone
  rw [hsum] at hspec
  obtain ⟨hfinite', hrounds⟩ := hspec (log2_lt_of_natAbs_le (Nat.mul_le_mul_right one hsmall))
  refine ⟨hfinite', hrounds.eq_of_fits ⟨_, 1074, hsmall, ?_⟩⟩
  rw [Int.natAbs_natCast, one_eq]

theorem sub_wholePart_lt_half (hhalf : 2 * (value x - ((value x).toNat / one * one : Nat)) < one)
    (hfits : Fits (value x - ((value x).toNat / one * one : Nat)).natAbs) :
    (x - wholePart x).abs < 0.5 := by
  obtain ⟨hfinite, hvalue⟩ := value_wholePart hx hpos hlt
  have hfloor : (value x).toNat / one * one ≤ (value x).toNat := Nat.div_mul_le_self _ _
  have hspec := value_sub hx hfinite
  rw [hvalue] at hspec
  obtain ⟨hdiff, hrounds⟩ := hspec (log2_lt_of_natAbs_le (by omega))
  rw [abs_lt_iff hdiff value_half.1, hrounds.eq_of_fits hfits, abs_of_nonneg (by omega)]
  have := value_half.2
  omega

theorem value_nearestWhole : (nearestWhole x).isFinite = true ∧
    ∃ n : Nat, n ≤ 2 ^ 53 ∧ value (nearestWhole x) = (n * one : Nat) ∧
      (2 * value x < one → n = 0) ∧ ∀ k : Nat, value x = (k * one : Nat) → n = k := by
  obtain ⟨hfinite, hvalue⟩ := value_wholePart hx hpos hlt
  have hsmall := wholeUnits_lt hpos hlt
  have honepos := one_units_pos
  have hsub := sub_wholePart_lt_half hx hpos hlt
  unfold nearestWhole
  dsimp only
  split
  · refine ⟨hfinite, _, hsmall.le, hvalue, fun hhalf => Nat.div_eq_of_lt (by omega), ?_⟩
    intro k hk
    rw [hk, Int.toNat_natCast, Nat.mul_div_cancel _ honepos]
  · next hfar =>
    rw [if_neg (not_lt_zero hpos hx)]
    obtain ⟨hfinite', hvalue'⟩ := value_wholePart_add_one hx hpos hlt
    refine ⟨hfinite', _, hsmall, hvalue', ?_, ?_⟩
    · intro hhalf
      rw [Nat.div_eq_of_lt (by omega), Nat.zero_mul, Nat.cast_zero, Int.sub_zero] at hsub
      exact absurd (hsub hhalf (fits_value hx)) hfar
    · intro k hk
      rw [hk, Int.toNat_natCast, Nat.mul_div_cancel _ honepos, Int.sub_self] at hsub
      exact absurd (hsub (by omega) ⟨0, 0, by decide, rfl⟩) hfar

end Small

theorem nearestWhole_eq_self (hx : x.isFinite = true) (hle : (2 ^ 53 * one : Nat) ≤ |value x|) :
    nearestWhole x = x := by
  have hwhole : wholePart x = x := by
    unfold wholePart
    rw [if_neg]
    rw [abs_lt_iff hx value_wholeFrom.1, value_wholeFrom.2]
    omega
  have hzero : (value x - value x).natAbs = 0 := by rw [Int.sub_self]; rfl
  obtain ⟨hdiff, hrounds⟩ := value_sub hx hx (by rw [hzero]; decide)
  have hexact := hrounds.eq_of_fits (hzero ▸ ⟨0, 0, by decide, rfl⟩)
  unfold nearestWhole
  rw [hwhole]
  refine if_pos ?_
  rw [abs_lt_iff hdiff value_half.1, hexact, Int.sub_self, abs_zero]
  have := value_half.2
  have := one_units_pos
  omega

theorem isFinite_snap (hx : x.isFinite = true) : (snap x).isFinite = true := by
  unfold snap
  dsimp only
  split
  · next hnear => exact (value_add_zero (isFinite_of_sub (isFinite_of_abs_lt hnear)).2).1
  · exact hx

theorem abs_sub_nearestWhole_lt_iff (hx : x.isFinite = true) (hpos : 0 ≤ value x)
    (hlt : value x < (2 ^ 53 * one : Nat)) (hfinite : (nearestWhole x).isFinite = true)
    (hzero : value (nearestWhole x) = 0) :
    (x - nearestWhole x).abs < snapWidth ↔ value x < slackUnits := by
  have hself : value x - value (nearestWhole x) = value x := by rw [hzero, Int.sub_zero]
  have hspec := value_sub hx hfinite
  rw [hself] at hspec
  obtain ⟨hdiff, hrounds⟩ := hspec (log2_lt_of_natAbs_le (by omega))
  rw [abs_lt_iff hdiff value_snapWidth.1, value_snapWidth.2, hrounds.eq_of_fits (fits_value hx),
    abs_of_nonneg hpos]

theorem value_snap (hx : x.isFinite = true) (hpos : 0 ≤ value x) :
    (value (snap x) = value x ∧ slackUnits ≤ value x) ∨
      ∃ n : Nat, value (snap x) = (n * one : Nat) ∧ (n = 0 → value x < slackUnits) ∧
        ∀ k : Nat, value x = (k * one : Nat) → n = k := by
  unfold snap
  dsimp only
  rcases Int.lt_or_le (value x) (2 ^ 53 * one : Nat) with hlt | hle
  · obtain ⟨hfinite, n, hn, hvalue, hzero, hwhole⟩ := value_nearestWhole hx hpos hlt
    have hnear : n = 0 → ((x - nearestWhole x).abs < snapWidth ↔ value x < slackUnits) := by
      rintro rfl
      exact abs_sub_nearestWhole_lt_iff hx hpos hlt hfinite (by rwa [Nat.zero_mul] at hvalue)
    split
    · next hsnap =>
      exact .inr ⟨n, (value_add_zero hfinite).2.trans hvalue, fun h => (hnear h).mp hsnap, hwhole⟩
    · next hkeep =>
      refine .inl ⟨rfl, ?_⟩
      by_contra hsmall
      have hslack := two_mul_slackUnits_lt_one
      exact hkeep ((hnear (hzero (by omega))).mpr (by omega))
  · left
    rw [nearestWhole_eq_self hx (hle.trans (le_abs_self _))]
    have hslack := two_mul_slackUnits_lt_one
    refine ⟨?_, by omega⟩
    split
    · exact (value_add_zero hx).2
    · rfl

theorem snap_of_infinite (h : x.toModel.unpack = .infinity .positive) : snap x = x := by
  unfold snap
  dsimp only
  rw [if_neg]
  intro hnear
  have hfinite := (isFinite_of_sub (isFinite_of_abs_lt hnear)).1
  change x.toModel.unpack.isFinite = true at hfinite
  rw [h] at hfinite
  cases hfinite

theorem AtLeast.snap {x : Float} (h : AtLeast slackUnits x) : AtLeast 1 (snap x) := by
  have hslack := two_pow_le_slackUnits
  have hone := one_units_pos
  cases h with
  | infinite top => exact .infinite (by rw [snap_of_infinite top, top])
  | finite hx le =>
    refine .finite (isFinite_snap hx) ?_
    rcases value_snap hx (by omega) with ⟨hvalue, -⟩ | ⟨n, hvalue, hzero, -⟩
    · omega
    · rw [hvalue]
      have hpos : 0 < n := Nat.pos_of_ne_zero fun h => by
        have := hzero h
        omega
      have := Nat.mul_pos hpos hone
      omega

theorem atLeast_snap (h : AtLeast 0 x) (hne : (snap x == 0) = false) :
    AtLeast slackUnits (snap x) := by
  cases h with
  | infinite top => exact .infinite (by rw [snap_of_infinite top, top])
  | finite hx hpos =>
    refine .finite (isFinite_snap hx) ?_
    rcases value_snap hx hpos with ⟨hvalue, hle⟩ | ⟨n, hvalue, -, -⟩
    · omega
    · have hn : n ≠ 0 := by
        rintro rfl
        refine Bool.false_ne_true (hne.symm.trans ((beq_iff (isFinite_snap hx) rfl).mpr ?_))
        rw [hvalue, Nat.zero_mul]
        rfl
      have hone := slackUnits_lt_one
      have hle := Nat.mul_le_mul_right one (Nat.pos_of_ne_zero hn)
      omega

theorem toNat_countUp_of_nonneg (hx : x.isFinite = true) (hpos : 0 ≤ value x) :
    (countUp x).toNat = min ((value x).toNat ⌈/⌉ one) (2 ^ 32 - 1) := by
  have hceil : ∀ n, (value x).toNat ⌈/⌉ one ≤ n ↔ (value x).toNat ≤ one * n :=
    fun _ => ceilDiv_le_iff_le_mul one_units_pos
  have hfloor : one * ((value x).toNat / one) ≤ (value x).toNat := Nat.mul_div_le _ _
  unfold countUp
  dsimp only
  rcases Int.lt_or_le (value x) (2 ^ 53 * one : Nat) with hlt | hle
  · obtain ⟨hfinite, hvalue⟩ := value_wholePart hx hpos hlt
    rw [Nat.mul_comm] at hvalue
    split
    · next hbehind =>
      rw [lt_iff hfinite hx, hvalue] at hbehind
      obtain ⟨hfinite', hvalue'⟩ := value_wholePart_add_one hx hpos hlt
      rw [toNat_toUInt32 hfinite' (by omega), hvalue', Int.toNat_natCast,
        Nat.mul_div_cancel _ one_units_pos]
      congr 1
      refine le_antisymm ?_ ((hceil _).mpr (Nat.lt_mul_div_succ _ one_units_pos).le)
      refine Nat.lt_of_not_le fun hbelow => ?_
      have := (hceil _).mp hbelow
      omega
    · next hreached =>
      rw [lt_iff hfinite hx, hvalue] at hreached
      rw [toNat_toUInt32 hfinite (by omega), hvalue, Int.toNat_natCast,
        Nat.mul_div_cancel_left _ one_units_pos]
      congr 1
      refine le_antisymm (le_of_mul_le_mul_left ?_ one_units_pos) ((hceil _).mpr (by omega))
      exact hfloor.trans ((hceil _).mp le_rfl)
  · -- so far out there is nothing behind the point, and neither side reaches its count
    have hwords : 2 ^ 53 ≤ (value x).toNat / one :=
      (Nat.le_div_iff_mul_le one_units_pos).mpr (by omega)
    have hover : (value x).toNat / one ≤ (value x).toNat ⌈/⌉ one :=
      le_of_mul_le_mul_left (hfloor.trans ((hceil _).mp le_rfl)) one_units_pos
    rw [wholePart_eq_self (.finite hx hle), if_neg (by rw [lt_iff hx hx]; omega),
      toNat_toUInt32 hx hpos]
    omega

theorem one_le_countUp (h : AtLeast 1 x) : 1 ≤ (countUp x).toNat := by
  cases h with
  | infinite top =>
    unfold countUp
    dsimp only
    rw [wholePart_eq_self (.infinite top), if_neg, toNat_toUInt32_of_infinite top]
    · decide
    · rw [lt_iff_unpack, top]
      exact fun h => by cases h
  | finite hx le =>
    rw [toNat_countUp_of_nonneg hx (by omega)]
    refine le_min (Nat.pos_of_ne_zero fun hzero => ?_) (by decide)
    have := (ceilDiv_le_iff_le_mul one_units_pos).mp hzero.le
    omega

theorem toNat_countUp (hx : x.isFinite = true) {n : Nat} (h : value x = (n * one : Nat)) :
    (countUp x).toNat = min n (2 ^ 32 - 1) := by
  have hceil : n * one ⌈/⌉ one = n := by
    rw [Nat.mul_comm, ← smul_eq_mul, smul_ceilDiv one_units_pos]
  rw [toNat_countUp_of_nonneg hx (by omega), h, Int.toNat_natCast, hceil]

theorem toNat_countUp_snap (hx : x.isFinite = true) {n : Nat} (h : value x = (n * one : Nat)) :
    (countUp (snap x)).toNat = min n (2 ^ 32 - 1) := by
  refine toNat_countUp (isFinite_snap hx) ?_
  obtain ⟨hkept, -⟩ | ⟨k, hk, -, hwhole⟩ := value_snap hx (by omega)
  · exact hkept.trans h
  · rwa [hwhole n h] at hk

end Value

theorem abs_toFloat (n : UInt32) : n.toFloat.abs = n.toFloat := by
  rcases eq_or_ne n 0 with rfl | hn
  · rfl
  · have hpos : 0 < n.toNat := Nat.pos_of_ne_zero fun h => hn (UInt32.toNat_inj.mp h)
    have hunits : 0 < n.toNat * one := Nat.mul_pos hpos one_units_pos
    obtain ⟨hfinite, hvalue⟩ := value_toFloat n
    obtain ⟨hfinite', hvalue'⟩ := value_abs hfinite
    rw [hvalue, abs_of_nonneg (by omega)] at hvalue'
    exact eq_of_value_eq hfinite' hfinite (hvalue'.trans hvalue.symm) (by omega)

end MarchingDrill.Numeric
