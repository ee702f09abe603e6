import MarchingDrill.Performance.Track
import MarchingDrill.Proofs.Binary64.Arithmetic

/-! Beats next to boundaries, in units. Taking whole beats off a beat is exact, so that what the
slack does to a beat depends on the spacing of floats alone. -/

namespace MarchingDrill

open Binary64 Float.Model

theorem value_beatSlack : beatSlack.isFinite = true ∧ value beatSlack = slackUnits := value_slack

theorem value_two_slacks :
    (2e-9 : Float).isFinite = true ∧ value 2e-9 = (2 * slackUnits : Nat) := by
  have hunpack : (2e-9 : Float).toModel.unpack =
      .finite .positive 4835703278458517 (-81) (by decide) := rfl
  have hexp : (-81 + 1074 : Int).toNat = 992 + 1 := rfl
  have hdouble : ∀ m k : Nat, m * 2 ^ (k + 1) = 2 * (m * 2 ^ k) := by
    intro m k
    ring
  refine ⟨rfl, ?_⟩
  rw [value, hunpack, units_finite, hexp, hdouble, slackUnits_eq, UnpackedFloat.Sign.apply]

/-- A finite float between zero and 2^32. -/
structure IsBeat (x : Float) : Prop where
  finite : x.isFinite = true
  nonneg : 0 ≤ value x
  le : value x ≤ (2 ^ 32 * one : Nat)

namespace IsBeat

variable {x : Float}

theorem value_toFloat_le (n : UInt32) : n.toNat * one ≤ 2 ^ 32 * one :=
  Nat.mul_le_mul_right one n.toNat_lt.le

theorem of_le {n : UInt32} (h : 0 ≤ x) (hn : x ≤ n.toFloat) : IsBeat x := by
  have hzero := value_toFloat 0
  have htop := value_toFloat n
  have h0 : (0 : Float) = (0 : UInt32).toFloat := rfl
  rw [h0] at h
  have hfinite := isFinite_of_le_of_le hzero.1 htop.1 h hn
  refine ⟨hfinite, ?_, ?_⟩
  · have hle := (le_iff hzero.1 hfinite).mp h
    rw [hzero.2] at hle
    simpa using hle
  · have hle := (le_iff hfinite htop.1).mp hn
    rw [htop.2] at hle
    exact hle.trans (Int.ofNat_le.mpr (value_toFloat_le n))

theorem of_value (hfinite : x.isFinite = true) {y : Float} (hy : IsBeat y) (hnonneg : 0 ≤ value x)
    (hle : value x ≤ value y) : IsBeat x := ⟨hfinite, hnonneg, hle.trans hy.le⟩

theorem spacing_le {n : Nat} (h : n ≤ 2 ^ 32 * one) : spacing n ≤ 1074 := by
  rw [one_eq] at h
  have hlog : n.log2 ≤ 32 + 1074 := log2_le_of_le h
  unfold spacing
  omega

variable (h : IsBeat x) (n : UInt32)
include h

theorem spacing_dvd {z : Nat} (hz : (z : Int) ≤ value x) :
    (2 ^ spacing z : Int) ∣ value x - (n.toNat * one : Nat) := by
  have hnonneg := h.nonneg
  have hle := h.le
  have hbeat : 2 ^ spacing z ∣ (value x).natAbs := (fits_value h.finite).dvd (by omega)
  have hwhole : 2 ^ spacing z ∣ n.toNat * one :=
    Nat.dvd_mul_left_of_dvd (two_pow_dvd_one (spacing_le (by omega))) _
  have hbeat : ((2 ^ spacing z : Nat) : Int) ∣ value x := Int.natCast_dvd.mpr hbeat
  have hwhole : ((2 ^ spacing z : Nat) : Int) ∣ (n.toNat * one : Nat) :=
    Int.natCast_dvd_natCast.mpr hwhole
  have hdvd := Int.dvd_sub hbeat hwhole
  rwa [Nat.cast_pow] at hdvd

theorem sub_slack_spec : (x - beatSlack).isFinite = true ∧
    Rounds (value x - slackUnits) (value (x - beatSlack)) := by
  have hslack := slackUnits_lt_one
  have hnonneg := h.nonneg
  have hle := h.le
  rw [← value_beatSlack.2]
  refine value_sub h.finite value_beatSlack.1 (log2_lt_of_le ?_)
  rw [value_beatSlack.2]
  omega

theorem isOver_iff : isOver n x = true ↔ ((n.toNat * one : Nat) : Int) < value (x - beatSlack) := by
  obtain ⟨hfinite, hvalue⟩ := value_toFloat n
  rw [isOver, decide_eq_true_iff, lt_iff hfinite h.sub_slack_spec.1, hvalue]

theorem lt_of_isOver (hover : isOver n x = true) : ((n.toNat * one : Nat) : Int) < value x := by
  rw [h.isOver_iff] at hover
  exact hover.trans_le (h.sub_slack_spec.2.le_of_le (fits_value h.finite) (by omega))

theorem le_of_not_isOver (hover : isOver n x = false) :
    value x ≤ (n.toNat * one : Nat) + 2 * slackUnits := by
  have hnot : value (x - beatSlack) ≤ (n.toNat * one : Nat) := by
    rw [← Int.not_lt, ← h.isOver_iff, hover]
    exact Bool.false_ne_true
  rcases lt_or_ge 0 (value x - slackUnits) with hlarge | hsmall
  · have hbelow : ((value x - slackUnits).natAbs : Int) ≤ value x := by omega
    obtain ⟨c, hc⟩ := h.spacing_dvd n hbelow
    have hhalf := h.sub_slack_spec.2.le_add_half hlarge
    have hpos : (0 : Int) < 2 ^ spacing (value x - slackUnits).natAbs := by positivity
    generalize (2 : Int) ^ spacing (value x - slackUnits).natAbs = p at hc hhalf hpos
    -- the excess is `p * c`, and all that rounding can hide of it beyond the slack is half of `p`
    rcases Int.lt_or_le c 1 with hc1 | hc1
    · have hle : p * c ≤ 0 := Int.mul_nonpos_of_nonneg_of_nonpos hpos.le (by omega)
      omega
    · have hle : p ≤ p * c := le_mul_of_one_le_right hpos.le hc1
      omega
  · omega

theorem sub_toFloat (hn : ((n.toNat * one : Nat) : Int) ≤ value x) :
    IsBeat (x - n.toFloat) ∧ value (x - n.toFloat) = value x - (n.toNat * one : Nat) := by
  obtain ⟨hfinite, hvalue⟩ := value_toFloat n
  have hnonneg := h.nonneg
  have hle := h.le
  -- the difference lies on the spacing at the beat, where a float can hold it
  have hfits : Fits (value x - (n.toNat * one : Nat)).natAbs := by
    have hself : ((value x).natAbs : Int) ≤ value x := by omega
    have hdvd := Int.natAbs_dvd_natAbs.mpr (h.spacing_dvd n hself)
    rw [Int.natAbs_pow] at hdvd
    exact .of_dvd hdvd (by omega)
  have hspec := value_sub h.finite hfinite
  rw [hvalue] at hspec
  obtain ⟨hfinite, hrounds⟩ := hspec (log2_lt_of_le (by omega))
  have hexact := hrounds.eq_of_fits hfits
  exact ⟨.of_value hfinite h (by omega) (by omega), hexact⟩

theorem lt_of_past (hpast : n.toFloat + beatSlack < x) :
    ((n.toNat * one : Nat) : Int) < value x := by
  obtain ⟨hfinite, hvalue⟩ := value_toFloat n
  have hslack := slackUnits_lt_one
  have hn := value_toFloat_le n
  have hspec := value_add hfinite value_beatSlack.1
  rw [hvalue, value_beatSlack.2] at hspec
  obtain ⟨hfinite', hrounds⟩ := hspec (log2_lt_of_le (by omega))
  rw [lt_iff hfinite' h.finite] at hpast
  have hge := hrounds.ge_of_ge (hvalue ▸ fits_value hfinite) (by omega)
  omega

theorem not_isNaN_or_neg : (x.isNaN || decide (x < 0)) = false := by
  have hzero := value_toFloat 0
  have hnonneg : ¬x < (0 : UInt32).toFloat := by
    rw [lt_iff h.finite hzero.1, hzero.2]
    have := h.nonneg
    simpa using this
  rw [isNaN_eq_false h.finite, Bool.false_or]
  exact decide_eq_false hnonneg

theorem beatWithin?_eq_none_iff : beatWithin? n x = none ↔ n.toFloat + beatSlack < x := by
  unfold beatWithin?
  simp only [h.not_isNaN_or_neg, Bool.false_or, decide_eq_true_iff]
  split <;> simp [*]

end IsBeat

end MarchingDrill
