import MarchingDrill.Proofs.Binary64.Capture
import MarchingDrill.Proofs.Binary64.Scaling

/-! Nearness: the numbers that finite floats stand for, and how far what arithmetic makes of them is
off the exact results. Far from the ends of the range a result is off by no more than the 2^53rd
part of the exact one, and not at all where a float can hold that. -/

namespace MarchingDrill.Binary64

open Float.Model Float.Model.UnpackedFloat

/-- The number that a finite float stands for. What is not finite counts as zero. -/
def number (x : Float) : ℚ := value x / one

theorem one_cast_pos : (0 : ℚ) < one := by exact_mod_cast one_units_pos

theorem one_cast_eq : (one : ℚ) = 2 ^ (1074 : Int) := by
  rw [one_eq, Nat.cast_pow, Nat.cast_two]
  exact (zpow_natCast (2 : ℚ) 1074).symm

theorem number_mul_one (x : Float) : number x * one = value x :=
  div_mul_cancel₀ _ one_cast_pos.ne'

theorem number_eq_of_value {x : Float} {k : Int} (h : value x = k * one) : number x = k := by
  rw [number, h, div_eq_iff one_cast_pos.ne']
  push_cast
  rfl

theorem number_nonneg_iff {x : Float} : 0 ≤ number x ↔ 0 ≤ value x := by
  rw [number, le_div_iff₀ one_cast_pos, zero_mul, Int.cast_nonneg_iff]

theorem number_toFloat (n : UInt32) : number n.toFloat = n.toNat :=
  number_eq_of_value (k := n.toNat) (by exact_mod_cast (value_toFloat n).2)

theorem Rounds.abs_sub_le {z x : Int} (h : Rounds z x) : 2 ^ 53 * |x - z| ≤ |z| := by
  obtain ⟨y, ⟨hdvd, hle, hge⟩, rfl⟩ := h
  have habs : |z.sign * y - z| = |(y : Int) - z.natAbs| := by
    rcases lt_trichotomy z 0 with hz | rfl | hz
    · rw [Int.sign_eq_neg_one_of_neg hz, abs_sub_comm]
      congr 1
      omega
    · have hy : y = 0 := by
        change 2 * y ≤ 1 at hle
        omega
      rw [hy]
      rfl
    · rw [Int.sign_eq_one_of_pos hz, Int.one_mul, Int.natAbs_of_nonneg hz.le]
  rw [habs, Int.abs_eq_natAbs z]
  rcases Nat.eq_zero_or_pos (spacing z.natAbs) with hzero | hpos
  · rw [hzero] at hle hge
    have hy : y = z.natAbs := by omega
    rw [hy, Int.sub_self, abs_zero]
    omega
  · have hlarge := two_pow_le_of_spacing hpos
    generalize 2 ^ spacing z.natAbs = k at hle hge hlarge
    have hbound : 2 * |(y : Int) - z.natAbs| ≤ k := by
      rcases abs_cases ((y : Int) - z.natAbs) with ⟨heq, -⟩ | ⟨heq, -⟩ <;> rw [heq] <;> omega
    omega

theorem log2_lt_of_number {z : Int} (h : |(z : ℚ) / one| ≤ 2 ^ 100) : z.natAbs.log2 < 2097 := by
  rw [abs_div, abs_of_pos one_cast_pos, div_le_iff₀ one_cast_pos, ← Int.cast_abs] at h
  have hle : z.natAbs ≤ 2 ^ 100 * one := by
    have hcast : |z| ≤ 2 ^ 100 * (one : Int) := by exact_mod_cast h
    rw [Int.abs_eq_natAbs] at hcast
    exact_mod_cast hcast
  rw [one_eq] at hle
  exact Nat.lt_of_le_of_lt (log2_le_of_le hle) (by decide)

def Held (z : ℚ) : Prop := ∃ a : Int, Fits a.natAbs ∧ z = a / one

theorem held_of_grid {a : Int} {j : Nat} (ha : |a| ≤ 2 ^ 53) (hj : j ≤ 1074) :
    Held (a / 2 ^ j) := by
  obtain ⟨k, hk⟩ : ∃ k, one = 2 ^ j * 2 ^ k :=
    ⟨1074 - j, by rw [← Nat.pow_add, Nat.add_sub_cancel' hj, one_eq]⟩
  rw [Int.abs_eq_natAbs] at ha
  refine ⟨a * 2 ^ k, ⟨a.natAbs, k, by omega, ?_⟩, ?_⟩
  · rw [Int.natAbs_mul, Int.natAbs_pow]
    rfl
  · rw [hk]
    push_cast
    rw [mul_div_mul_right _ _ (by positivity)]

theorem held_whole {k : Int} (h : |k| ≤ 2 ^ 53) : Held k := by
  have hheld := held_of_grid h (Nat.zero_le 1074)
  rwa [pow_zero, div_one] at hheld

/-- A finite float that is off a number by no more than the 2^53rd part of it, what is far below all
spacings aside, and not at all where a float can hold the number. -/
structure Approximates (x : Float) (z : ℚ) : Prop where
  finite : x.isFinite = true
  near : |number x - z| ≤ |z| / 2 ^ 53 + 1 / 2 ^ 100
  exact : Held z → number x = z

theorem Rounds.approximates {z : Int} {x : Float} (h : Rounds z (value x))
    (hx : x.isFinite = true) : Approximates x (z / one) where
  finite := hx
  near := by
    have hdiv : (2 : ℚ) ^ 53 * |(value x : ℚ) / one - z / one| ≤ |(z : ℚ) / one| := by
      rw [← sub_div, abs_div, abs_div, abs_of_pos one_cast_pos, ← mul_div_assoc]
      exact div_le_div_of_nonneg_right (by exact_mod_cast h.abs_sub_le) one_cast_pos.le
    rw [number]
    linarith [(by positivity : (0 : ℚ) ≤ 1 / 2 ^ 100)]
  exact := by
    rintro ⟨a, hfits, heq⟩
    have hza : z = a := by
      have := (div_left_inj' one_cast_pos.ne').mp heq
      exact_mod_cast this
    rw [number, h.eq_of_fits (hza ▸ hfits)]

section Sums

variable {x y : Float} (hx : x.isFinite = true) (hy : y.isFinite = true)
include hx hy

theorem number_lt_iff : x < y ↔ number x < number y := by
  rw [lt_iff hx hy, number, number, div_lt_div_iff_of_pos_right one_cast_pos, Int.cast_lt]

theorem approximates_sub (h : |number x - number y| ≤ 2 ^ 100) :
    Approximates (x - y) (number x - number y) := by
  have hexact : number x - number y = ((value x - value y : Int) : ℚ) / one := by
    rw [number, number, ← sub_div, Int.cast_sub]
  rw [hexact] at h ⊢
  obtain ⟨hfinite, hrounds⟩ := value_sub hx hy (log2_lt_of_number h)
  exact hrounds.approximates hfinite

theorem approximates_add (h : |number x + number y| ≤ 2 ^ 100) :
    Approximates (x + y) (number x + number y) := by
  have hexact : number x + number y = ((value x + value y : Int) : ℚ) / one := by
    rw [number, number, ← add_div, Int.cast_add]
  rw [hexact] at h ⊢
  obtain ⟨hfinite, hrounds⟩ := value_add hx hy (log2_lt_of_number h)
  exact hrounds.approximates hfinite

end Sums

section Magnitude

variable {x : Float}

theorem number_abs (hx : x.isFinite = true) :
    x.abs.isFinite = true ∧ number x.abs = |number x| := by
  obtain ⟨hfinite, hvalue⟩ := value_abs hx
  refine ⟨hfinite, ?_⟩
  rw [number, number, hvalue, abs_div, abs_of_pos one_cast_pos, Int.cast_abs]

theorem value_neg (hx : x.isFinite = true) : (-x).isFinite = true ∧ value (-x) = -value x := by
  obtain ⟨hfinite, hvalue⟩ := ofModel_pack (unpack_canonical hx).neg
  exact ⟨hfinite, hvalue.trans (units_neg _)⟩

theorem number_neg (hx : x.isFinite = true) : (-x).isFinite = true ∧ number (-x) = -number x := by
  obtain ⟨hfinite, hvalue⟩ := value_neg hx
  refine ⟨hfinite, ?_⟩
  rw [number, number, hvalue, Int.cast_neg, neg_div]

end Magnitude

section Products

theorem two_pow_units {e : Int} (he : -1074 ≤ e) : (2 : ℚ) ^ (e + 1074).toNat = 2 ^ e * one := by
  rw [one_cast_eq, ← zpow_natCast, ← zpow_add₀ two_ne_zero]
  congr 1
  omega

theorem apply_div_one (s : Sign) (m : Nat) {e : Int} (he : -1074 ≤ e) :
    ((s.apply (m * 2 ^ (e + 1074).toNat : Nat) : Int) : ℚ) / one =
      (s.apply 1 : Int) * (m * 2 ^ e) := by
  rw [div_eq_iff one_cast_pos.ne']
  cases s <;> simp only [Sign.apply] <;> push_cast <;> rw [two_pow_units he] <;> ring

theorem log2_of_eq {m z : Nat} {e : Int} (hm : m ≠ 0) (h : (m : ℚ) * 2 ^ e = z / one) :
    (z.log2 : Int) = m.log2 + e + 1074 := by
  obtain ⟨i, hi, hi1074⟩ : ∃ i : Int, (one : ℚ) = 2 ^ i ∧ i = 1074 := ⟨1074, one_cast_eq, rfl⟩
  rw [eq_div_iff one_cast_pos.ne', hi, mul_assoc, ← zpow_add₀ two_ne_zero] at h
  rcases le_total 0 (e + i) with hpos | hneg
  · obtain ⟨k, hk⟩ := Int.eq_ofNat_of_zero_le hpos
    rw [hk, zpow_natCast] at h
    have hz : z = m * 2 ^ k := by exact_mod_cast h.symm
    rw [hz, log2_mul_two_pow hm]
    omega
  · obtain ⟨k, hk⟩ := Int.eq_ofNat_of_zero_le (Int.neg_nonneg_of_nonpos hneg)
    rw [← neg_neg (e + i), hk, zpow_neg, zpow_natCast, ← div_eq_mul_inv,
      div_eq_iff (by positivity)] at h
    have hz : m = z * 2 ^ k := by exact_mod_cast h
    have hz0 : z ≠ 0 := by
      rintro rfl
      exact hm (hz.trans (Nat.zero_mul _))
    rw [hz, log2_mul_two_pow hz0]
    omega

theorem mantissa_eq_of_held {m r : Nat} {e t : Int} (hm : m ≠ 0)
    (ht : t = max ((m.log2 : Int) + e - 52) (-1074))
    (hnear : 2 * |(r : ℚ) * 2 ^ t - m * 2 ^ e| ≤ 2 ^ t) (h : Held (m * 2 ^ e)) :
    (r : ℚ) * 2 ^ t = m * 2 ^ e := by
  obtain ⟨a, hfits, ha⟩ := h
  have hpos : (0 : ℚ) < a / one := ha ▸ (by positivity)
  obtain ⟨z, rfl⟩ : ∃ z : Nat, a = z := by
    have : (0 : ℚ) < a := (div_pos_iff_of_pos_right one_cast_pos).mp hpos
    exact Int.eq_ofNat_of_zero_le (by exact_mod_cast this.le)
  rw [Int.natAbs_natCast] at hfits
  rw [Int.cast_natCast] at ha
  have hlog := log2_of_eq hm ha
  obtain ⟨c, hc⟩ := hfits.dvd (Nat.le_refl z)
  have hspacing : spacing z = (t + 1074).toNat := by
    unfold spacing
    omega
  have hmultiple : (m : ℚ) * 2 ^ e = c * 2 ^ t := by
    rw [ha, hc, hspacing, Nat.cast_mul, Nat.cast_pow, Nat.cast_two, two_pow_units (by omega),
      mul_right_comm, mul_div_cancel_right₀ _ one_cast_pos.ne', mul_comm]
  have htpos : (0 : ℚ) < 2 ^ t := by positivity
  rw [hmultiple, ← sub_mul, abs_mul, abs_of_pos htpos, ← mul_assoc] at hnear
  have hsmall := (mul_le_iff_le_one_left htpos).mp hnear
  have hint : 2 * |(r : Int) - c| ≤ 1 := by exact_mod_cast hsmall
  have hrc : r = c := by
    have := Int.abs_lt_one_iff.mp (by omega : |(r : Int) - c| < 1)
    omega
  rw [hmultiple, hrc]

theorem Nearest.abs_sub_le {m r : Nat} {e t : Int} (het : e ≤ t)
    (h : Nearest (t - e).toNat m (r * 2 ^ (t - e).toNat)) :
    2 * |(r : ℚ) * 2 ^ t - m * 2 ^ e| ≤ 2 ^ t := by
  have hpos : (0 : ℚ) < 2 ^ e := by positivity
  have hshift : (2 : ℚ) ^ (t - e).toNat * 2 ^ e = 2 ^ t := by
    rw [← zpow_natCast, ← zpow_add₀ two_ne_zero]
    congr 1
    omega
  have hle : (2 : ℚ) * (r * 2 ^ (t - e).toNat) ≤ 2 * m + 2 ^ (t - e).toNat := by
    exact_mod_cast h.le
  have hge : (2 : ℚ) * m ≤ 2 * (r * 2 ^ (t - e).toNat) + 2 ^ (t - e).toNat := by
    exact_mod_cast h.ge
  have hle' := mul_le_mul_of_nonneg_right hle hpos.le
  have hge' := mul_le_mul_of_nonneg_right hge hpos.le
  rw [← hshift, ← abs_two, ← abs_mul, abs_two]
  exact abs_le.mpr ⟨by linarith, by linarith⟩

theorem two_zpow_log2_le {m : Nat} (hm : m ≠ 0) (e : Int) :
    (2 : ℚ) ^ ((m.log2 : Int) + e) ≤ m * 2 ^ e := by
  rw [zpow_add₀ two_ne_zero, zpow_natCast]
  refine mul_le_mul_of_nonneg_right ?_ (by positivity)
  exact_mod_cast Nat.log2_self_le hm

theorem two_zpow_le_of_spacing {m : Nat} {e t : Int} (hm : m ≠ 0)
    (ht : t = max ((m.log2 : Int) + e - 52) (-1074)) :
    (2 : ℚ) ^ t ≤ 2 * (m * 2 ^ e / 2 ^ 53 + 1 / 2 ^ 100) := by
  rcases max_choice ((m.log2 : Int) + e - 52) (-1074) with hlong | hlow
  · have hpow : (2 : ℚ) ^ t = 2 ^ ((m.log2 : Int) + e) / 2 ^ 52 := by
      rw [ht, hlong, zpow_sub₀ two_ne_zero]
      rfl
    rw [hpow]
    linarith [two_zpow_log2_le hm e]
  · have hleast : (2 : ℚ) ^ t ≤ 2 ^ (-100 : Int) :=
      zpow_le_zpow_right₀ one_lt_two.le (by omega)
    have hpos : (0 : ℚ) ≤ m * 2 ^ e := by positivity
    rw [zpow_neg, ← one_div] at hleast
    change (2 : ℚ) ^ t ≤ 1 / 2 ^ 100 at hleast
    linarith

theorem roundWithAccuracy_near (s : Sign) {m : Nat} {e : Int} (hm : m ≠ 0)
    (hbits : 2 ^ 52 ≤ m ∨ e ≤ -1074) (htop : (m : ℚ) * 2 ^ e ≤ 2 ^ 100) :
    Canonical (roundWithAccuracy Format.binary64 s m e .exact) ∧ ∃ y : ℚ,
      (units (roundWithAccuracy Format.binary64 s m e .exact) : ℚ) / one = (s.apply 1 : Int) * y ∧
      |y - m * 2 ^ e| ≤ m * 2 ^ e / 2 ^ 53 + 1 / 2 ^ 100 ∧ (Held (m * 2 ^ e) → y = m * 2 ^ e) := by
  have hrange : (m.log2 : Int) + e ≤ (100 : Nat) := by
    refine (zpow_le_zpow_iff_right₀ (one_lt_two (α := ℚ))).mp ((two_zpow_log2_le hm e).trans ?_)
    rw [zpow_natCast]
    exact htop
  obtain ⟨t, ht⟩ : ∃ t, t = max ((m.log2 : Int) + e - 52) (-1074) := ⟨_, rfl⟩
  have het : e ≤ t := by
    rcases hbits with hbits | hlow
    · have := (Nat.le_log2 hm).mpr hbits
      omega
    · omega
  obtain ⟨hcanonical, r, hnear, hunits⟩ := roundWithAccuracy_spec s hm ht het (by omega)
  have hhalf := hnear.abs_sub_le het
  exact ⟨hcanonical, r * 2 ^ t, by rw [hunits, apply_div_one s r (by omega)],
    by linarith [two_zpow_le_of_spacing hm ht], mantissa_eq_of_held hm ht hhalf⟩

theorem apply_mul (s s' : Sign) : (s * s').apply 1 = s.apply 1 * s'.apply 1 := by
  cases s <;> cases s' <;> rfl

theorem abs_apply_one (s : Sign) : |((s.apply 1 : Int) : ℚ)| = 1 := by
  cases s <;> simp [Sign.apply]

theorem Held.abs {z : ℚ} (h : Held z) : Held |z| := by
  obtain ⟨a, hfits, rfl⟩ := h
  refine ⟨|a|, by rwa [Int.natAbs_abs], ?_⟩
  rw [abs_div, abs_of_pos one_cast_pos, Int.cast_abs]

theorem mul_near {u v : UnpackedFloat} (hu : Canonical u) (hv : Canonical v)
    (h : |(units u : ℚ) / one * (units v / one)| ≤ 2 ^ 100) :
    Canonical (u.mul Format.binary64 v) ∧
      |(units (u.mul Format.binary64 v) : ℚ) / one - units u / one * (units v / one)| ≤
        |(units u : ℚ) / one * (units v / one)| / 2 ^ 53 + 1 / 2 ^ 100 ∧
      (Held ((units u : ℚ) / one * (units v / one)) →
        (units (u.mul Format.binary64 v) : ℚ) / one = units u / one * (units v / one)) := by
  cases u with
  | infinity | notANumber => cases hu
  | zero s =>
    cases v with
    | infinity | notANumber => cases hv
    | zero | finite => exact ⟨trivial, by norm_num [UnpackedFloat.mul, units]⟩
  | finite s m d hm =>
    cases v with
    | infinity | notANumber => cases hv
    | zero => exact ⟨trivial, by norm_num [UnpackedFloat.mul, units]⟩
    | finite s' n e hn =>
      obtain ⟨hm', hd, -, hlead⟩ := hu
      obtain ⟨hn', he, -, hlead'⟩ := hv
      have hbits : 2 ^ 52 ≤ m * n ∨ d + e ≤ -1074 := by
        rcases hlead with hlead | rfl
        · exact .inl (hlead.trans (Nat.le_mul_of_pos_right _ hn))
        · rcases hlead' with hlead' | rfl
          · exact .inl (hlead'.trans (Nat.le_mul_of_pos_left _ hm))
          · exact .inr (by decide)
      have hexact : (units (.finite s m d hm) : ℚ) / one * (units (.finite s' n e hn) / one) =
          ((s * s').apply 1 : Int) * ((m * n : Nat) * 2 ^ (d + e)) := by
        rw [units_finite, units_finite, apply_div_one s m hd, apply_div_one s' n he,
          zpow_add₀ two_ne_zero, apply_mul]
        push_cast
        ring
      have hpos : (0 : ℚ) ≤ (m * n : Nat) * 2 ^ (d + e) := by positivity
      have habs : |(((s * s').apply 1 : Int) : ℚ) * ((m * n : Nat) * 2 ^ (d + e))| =
          (m * n : Nat) * 2 ^ (d + e) := by
        rw [abs_mul, abs_apply_one, one_mul, abs_of_nonneg hpos]
      rw [hexact, habs] at h ⊢
      obtain ⟨hcanonical, y, hunits, hnear, hheld⟩ :=
        roundWithAccuracy_near (s * s') (Nat.mul_pos hm hn).ne' hbits h
      have hproduct : (units (UnpackedFloat.mul Format.binary64 (.finite s m d hm)
          (.finite s' n e hn)) : ℚ) / one = ((s * s').apply 1 : Int) * y := hunits
      refine ⟨hcanonical, ?_, fun hz => ?_⟩
      · rwa [hproduct, ← mul_sub, abs_mul, abs_apply_one, one_mul]
      · rw [hproduct, hheld (habs ▸ hz.abs)]

section Float

variable {x y : Float}

theorem approximates_mul (hx : x.isFinite = true) (hy : y.isFinite = true)
    (h : |number x * number y| ≤ 2 ^ 100) : Approximates (x * y) (number x * number y) := by
  obtain ⟨hcanonical, hnear, hheld⟩ := mul_near (unpack_canonical hx) (unpack_canonical hy) h
  obtain ⟨hfinite, hvalue⟩ := ofModel_pack hcanonical
  have hproduct : number (x * y) =
      units (x.toModel.unpack.mul Format.binary64 y.toModel.unpack) / one :=
    congrArg (fun v : Int => (v : ℚ) / one) hvalue
  exact ⟨hfinite, hproduct ▸ hnear, fun hz => hproduct.trans (hheld hz)⟩

theorem mantissa_of_count {k : UInt32} {a : Nat} {e : Int} (he : -1074 ≤ e)
    (h : a * 2 ^ (e + 1074).toNat = k.toNat * one) : (a : ℚ) * 2 ^ e = k.toNat := by
  have hdiv := apply_div_one .positive a he
  simp only [h, Sign.apply] at hdiv
  push_cast at hdiv
  rw [mul_div_cancel_right₀ _ one_cast_pos.ne', one_mul] at hdiv
  exact hdiv.symm

theorem quotient_in_range {m n : UInt32} (hm : 1 ≤ m) (hn : 1 ≤ n) :
    (2 : ℚ) ^ (-1022 : Int) ≤ (m.toNat : ℚ) / n.toNat ∧
      (m.toNat : ℚ) / n.toNat < 2 ^ (1023 : Int) := by
  have hm1 : (1 : ℚ) ≤ m.toNat := by exact_mod_cast UInt32.le_iff_toNat_le.mp hm
  have hn1 : (1 : ℚ) ≤ n.toNat := by exact_mod_cast UInt32.le_iff_toNat_le.mp hn
  have hm32 : (m.toNat : ℚ) ≤ 2 ^ (32 : Int) := by exact_mod_cast m.toNat_lt.le
  have hn32 : (n.toNat : ℚ) ≤ 2 ^ (32 : Int) := by exact_mod_cast n.toNat_lt.le
  constructor
  · calc
      (2 : ℚ) ^ (-1022 : Int) ≤ 2 ^ (-32 : Int) := zpow_le_zpow_right₀ one_lt_two.le (by decide)
      _ = 1 / 2 ^ (32 : Int) := by rw [zpow_neg, one_div]
      _ ≤ m.toNat / n.toNat := div_le_div₀ (by linarith) hm1 (by linarith) hn32
  · calc
      (m.toNat : ℚ) / n.toNat ≤ m.toNat := div_le_self (by linarith) hn1
      _ ≤ 2 ^ (32 : Int) := hm32
      _ < 2 ^ (1023 : Int) := zpow_lt_zpow_right₀ one_lt_two (by decide)

theorem number_div_toFloat {m n : UInt32} (hm : 1 ≤ m) (hn : 1 ≤ n) :
    (m.toFloat / n.toFloat).isFinite = true ∧
      2 ^ 53 * |number (m.toFloat / n.toFloat) - m.toNat / n.toNat| ≤ (m.toNat / n.toNat : ℚ) := by
  obtain ⟨m₁, e₁, hm₁, h₁, hc₁, hunits₁⟩ := unpack_toFloat_of_pos hm
  obtain ⟨m₂, e₂, hm₂, h₂, hc₂, hunits₂⟩ := unpack_toFloat_of_pos hn
  obtain ⟨hlow, htop⟩ := quotient_in_range hm hn
  obtain ⟨r, q, hr, hcanonical, hcaptures, hnear⟩ := exists_captures hlow htop
  rw [← mantissa_of_count hc₁.2.1 hunits₁, ← mantissa_of_count hc₂.2.1 hunits₂] at hcaptures
  have hdiv : UnpackedFloat.div Format.binary64 m.toFloat.toModel.unpack
      n.toFloat.toModel.unpack = .finite .positive r q hr := by
    rw [h₁, h₂]
    exact div_of_captures hcanonical hcaptures
  obtain ⟨hfinite, hvalue⟩ := ofModel_pack hcanonical
  rw [← hdiv] at hfinite hvalue
  refine ⟨hfinite, ?_⟩
  have hquotient : value (m.toFloat / n.toFloat) = units (.finite .positive r q hr) :=
    hvalue.trans (congrArg units hdiv)
  rw [number, hquotient, units_finite, apply_div_one .positive r hcanonical.2.1]
  simp only [Sign.apply, Int.cast_one, one_mul]
  exact hnear

end Float

end Products

end MarchingDrill.Binary64
