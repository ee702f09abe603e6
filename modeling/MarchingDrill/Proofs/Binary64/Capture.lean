import MarchingDrill.Decimal.Shortest
import MarchingDrill.Proofs.Binary64.Rounding

/-! Capture: the rational numbers that round to a float make up an interval around it. Whatever
product or quotient of mantissas lies in this interval, rounding makes the float of it. Every number
in the normal range lies in the interval of a float. -/

namespace MarchingDrill.Binary64

open Float.Model Float.Model.UnpackedFloat

theorem tracks_inexact (n : Nat) {f : ℚ} (hpos : 0 < f) (hlt : f < 1) :
    Tracks (ExtendedMantissa.ofMantissaAndAccuracy n (.inexact (compare f (1 / 2)))) (n + f) := by
  rcases lt_trichotomy f (1 / 2) with h | rfl | h
  · rw [compare_lt_iff_lt.mpr h]
    exact ⟨by simp [ExtendedMantissa.ofMantissaAndAccuracy, hpos.le],
      by simp [ExtendedMantissa.ofMantissaAndAccuracy, hlt],
      by simpa [ExtendedMantissa.ofMantissaAndAccuracy] using h,
      by simpa [ExtendedMantissa.ofMantissaAndAccuracy, hpos.ne'] using h.ne⟩
  · rw [compare_eq_iff_eq.mpr rfl]
    constructor <;> norm_num [ExtendedMantissa.ofMantissaAndAccuracy]
  · rw [compare_gt_iff_gt.mpr h]
    exact ⟨by simp [ExtendedMantissa.ofMantissaAndAccuracy, hpos.le],
      by simp [ExtendedMantissa.ofMantissaAndAccuracy, hlt],
      by simpa [ExtendedMantissa.ofMantissaAndAccuracy] using h.le,
      by simpa [ExtendedMantissa.ofMantissaAndAccuracy, hpos.ne'] using h.ne'⟩

theorem tracks_quotient (n : Nat) {d : Nat} (hd : 0 < d) :
    Tracks (ExtendedMantissa.ofMantissaAndAccuracy (n / d) (accuracyOfFraction (n % d) d))
      (n / d) := by
  have hdpos : (0 : ℚ) < d := by exact_mod_cast hd
  have hsplit : (n : ℚ) / d = (n / d : Nat) + ((n % d : Nat) : ℚ) / d := by
    rw [div_eq_iff hdpos.ne', add_mul, div_mul_cancel₀ _ hdpos.ne']
    exact_mod_cast (Nat.div_add_mod' n d).symm
  rw [hsplit]
  unfold accuracyOfFraction
  split
  · next hzero =>
    rw [hzero]
    constructor <;> simp [ExtendedMantissa.ofMantissaAndAccuracy]
  · next hne =>
    have hpos : (0 : ℚ) < ((n % d : Nat) : ℚ) / d :=
      div_pos (by exact_mod_cast Nat.pos_of_ne_zero hne) hdpos
    have hlt : ((n % d : Nat) : ℚ) / d < 1 :=
      (div_lt_one hdpos).mpr (by exact_mod_cast Nat.mod_lt n hd)
    have hhalf : compare (2 * (n % d)) d = compare (((n % d : Nat) : ℚ) / d) (1 / 2) := by
      rcases lt_trichotomy (2 * (n % d)) d with h | h | h
      · rw [compare_lt_iff_lt.mpr h, compare_lt_iff_lt.mpr]
        have : (2 : ℚ) * (n % d : Nat) < d := by exact_mod_cast h
        rw [div_lt_iff₀ hdpos]
        linarith
      · rw [compare_eq_iff_eq.mpr h, compare_eq_iff_eq.mpr]
        have : (2 : ℚ) * (n % d : Nat) = d := by exact_mod_cast h
        rw [div_eq_iff hdpos.ne']
        linarith
      · rw [compare_gt_iff_gt.mpr h, compare_gt_iff_gt.mpr]
        have : (d : ℚ) < 2 * (n % d : Nat) := by exact_mod_cast h
        rw [lt_div_iff₀ hdpos]
        linarith
    rw [hhalf]
    exact tracks_inexact _ hpos hlt

section Rounding

variable {n : Nat} {e t : Int} {x : ℚ} {acc : Accuracy}

theorem mantissa_ofMantissaAndAccuracy (n : Nat) (acc : Accuracy) :
    (ExtendedMantissa.ofMantissaAndAccuracy n acc).mantissa = n := by
  unfold ExtendedMantissa.ofMantissaAndAccuracy
  split <;> rfl

theorem targetExponent_of_bounds (hx : Tracks (ExtendedMantissa.ofMantissaAndAccuracy n acc) x)
    (hbits : 52 ≤ n.log2 ∨ e ≤ -1074) (ht : -1074 ≤ t)
    (hlead : (2 : ℚ) ^ 52 * 2 ^ t ≤ x * 2 ^ e ∨ t = -1074)
    (hupper : x * 2 ^ e < 2 ^ 53 * 2 ^ t) :
    e ≤ t ∧ max ((n.log2 : Int) + e - 52) (-1074) = t := by
  have hfloor := hx.le
  have hceil := hx.lt
  rw [mantissa_ofMantissaAndAccuracy] at hfloor hceil
  have hepos : (0 : ℚ) < 2 ^ e := by positivity
  have het : e ≤ t := by
    rcases hbits with hbits | he
    · have hn : n ≠ 0 := by
        rintro rfl
        exact absurd hbits (by decide)
      have hle : (2 : ℚ) ^ 52 ≤ x := by
        refine le_trans ?_ hfloor
        exact_mod_cast (Nat.le_log2 hn).mp hbits
      have hlt : (2 : ℚ) ^ e < 2 ^ (t + 1) := by
        rw [zpow_add_one₀ two_ne_zero]
        have := mul_le_mul_of_nonneg_right hle hepos.le
        linarith
      have := (zpow_lt_zpow_iff_right₀ one_lt_two).mp hlt
      omega
    · omega
  obtain ⟨k, rfl⟩ : ∃ k : Nat, t = e + k := ⟨(t - e).toNat, by omega⟩
  have hshift : ∀ j : Nat, (2 : ℚ) ^ j * 2 ^ (e + k : Int) = (2 : ℚ) ^ (j + k) * 2 ^ e := by
    intro j
    rw [zpow_add₀ two_ne_zero, zpow_natCast, pow_add]
    ring
  have hlog : n.log2 < 53 + k := by
    rcases Nat.eq_zero_or_pos n with rfl | hpos
    · exact Nat.lt_of_lt_of_le (by decide) (Nat.le_add_right 53 k)
    · rw [hshift] at hupper
      have hlt := lt_of_mul_lt_mul_right hupper hepos.le
      exact (Nat.log2_lt hpos.ne').mpr (by exact_mod_cast hfloor.trans_lt hlt)
  refine ⟨het, ?_⟩
  rcases hlead with hlead | hlow
  · rw [hshift] at hlead
    have hle := (le_of_mul_le_mul_right hlead hepos).trans_lt hceil
    have hle : 2 ^ (52 + k) ≤ n := Nat.lt_succ_iff.mp (by exact_mod_cast hle)
    have := (Nat.le_log2 (by have := Nat.two_pow_pos (52 + k); omega)).mpr hle
    omega
  · omega

theorem roundWithAccuracy_of_bounds (s : Sign) {r : Nat} (hr : 0 < r)
    (hx : Tracks (ExtendedMantissa.ofMantissaAndAccuracy n acc) x)
    (hbits : 52 ≤ n.log2 ∨ e ≤ -1074) (ht : -1074 ≤ t)
    (hlead : (2 : ℚ) ^ 52 * 2 ^ t ≤ x * 2 ^ e ∨ t = -1074)
    (hupper : x * 2 ^ e < 2 ^ 53 * 2 ^ t)
    (hlow : ((r : ℚ) - 1 / 2) * 2 ^ t ≤ x * 2 ^ e) (hhigh : x * 2 ^ e ≤ (r + 1 / 2) * 2 ^ t)
    (hodd : r % 2 = 1 → ((r : ℚ) - 1 / 2) * 2 ^ t < x * 2 ^ e ∧ x * 2 ^ e < (r + 1 / 2) * 2 ^ t) :
    roundWithAccuracy Format.binary64 s n e acc =
      if r = 2 ^ 53 then .finite s (2 ^ 52) (t + 1) (by decide) else .finite s r t hr := by
  obtain ⟨het, htarget⟩ := targetExponent_of_bounds hx hbits ht hlead hupper
  have htpos : (0 : ℚ) < 2 ^ t := by positivity
  obtain ⟨k, hk⟩ : ∃ k : Nat, (t - e).toNat = k := ⟨_, rfl⟩
  have hscaled : x / 2 ^ k = x * 2 ^ e / 2 ^ t := by
    have : (2 : ℚ) ^ t = 2 ^ e * 2 ^ k := by
      rw [← zpow_natCast, ← zpow_add₀ two_ne_zero]
      congr 1
      omega
    rw [this, mul_comm x, mul_div_mul_left _ _ (by positivity)]
  have hrounded : (ExtendedMantissa.ofMantissaAndAccuracy n acc >>> k).roundedMantissa = r := by
    refine (hx.shiftRight k).halfEven.eq ⟨?_, ?_, ?_⟩ <;> rw [hscaled]
    · rwa [le_div_iff₀ htpos]
    · rwa [div_le_iff₀ htpos]
    · rw [lt_div_iff₀ htpos, div_lt_iff₀ htpos]
      exact hodd
  have hr53 : r ≤ 2 ^ 53 := by
    have hlt := lt_of_mul_lt_mul_right (hlow.trans_lt hupper) htpos.le
    have : (r : ℚ) < 2 ^ 53 + 1 := by linarith
    exact Nat.lt_succ_iff.mp (by exact_mod_cast this)
  have hshift : shiftToTargetExponent Format.binary64 n e acc =
      (ExtendedMantissa.ofMantissaAndAccuracy n acc >>> k, t) := by
    unfold shiftToTargetExponent shiftToExponent
    simp only [targetExponent_eq, htarget, hk]
    congr 1
    omega
  exact roundWithAccuracy_eq s hshift hrounded hr hr53 ht

end Rounding

open Decimal.Shortest in
/-- The numbers that round to `m * 2 ^ q`. The ends of the interval do when the mantissa is even. -/
structure Captures (m : Nat) (q : Int) (x : ℚ) : Prop where
  low : (4 * m - lowerGap m q : ℚ) * 2 ^ (q - 2) ≤ x
  high : x ≤ (4 * m + 2) * 2 ^ (q - 2)
  inside : m % 2 = 1 →
    (4 * m - lowerGap m q : ℚ) * 2 ^ (q - 2) < x ∧ x < (4 * m + 2) * 2 ^ (q - 2)

theorem two_zpow_eq (q : Int) : (2 : ℚ) ^ q = 4 * 2 ^ (q - 2) := by
  rw [zpow_sub₀ two_ne_zero]
  norm_num
  ring

theorem two_zpow_sub_one_eq (q : Int) : (2 : ℚ) ^ (q - 1) = 2 * 2 ^ (q - 2) := by
  rw [zpow_sub₀ two_ne_zero, zpow_sub₀ two_ne_zero]
  norm_num
  ring

theorem lowerGap_le (m : Nat) (q : Int) : Decimal.Shortest.lowerGap m q ≤ 2 := by
  unfold Decimal.Shortest.lowerGap
  split <;> decide

namespace Captures

variable {m : Nat} {q : Int} {x : ℚ}

theorem two_zpow_le (h : Captures m q x) (hm : 0 < m) : (2 : ℚ) ^ (q - 1) ≤ x := by
  have hp : (0 : ℚ) < 2 ^ (q - 2) := by positivity
  have hgap : (Decimal.Shortest.lowerGap m q : ℚ) ≤ 2 := by exact_mod_cast lowerGap_le m q
  have hm1 : (1 : ℚ) ≤ m := by exact_mod_cast hm
  rw [two_zpow_sub_one_eq]
  exact (mul_le_mul_of_nonneg_right (by linarith) hp.le).trans h.low

theorem lt_two_zpow (h : Captures m q x) (hm : m < 2 ^ 53) : x < 2 ^ (q + 53) := by
  have hp : (0 : ℚ) < 2 ^ (q - 2) := by positivity
  have hm53 : (m : ℚ) + 1 ≤ 2 ^ 53 := by exact_mod_cast hm
  rw [show q + 53 = 55 + (q - 2) by ring, zpow_add₀ two_ne_zero]
  exact h.high.trans_lt (mul_lt_mul_of_pos_right (by norm_num at hm53 ⊢; linarith) hp)

end Captures

theorem roundWithAccuracy_of_captures (s : Sign) {m n : Nat} {q e : Int} {x : ℚ} {acc : Accuracy}
    {hm : 0 < m} (hc : Canonical (.finite s m q hm))
    (hx : Tracks (ExtendedMantissa.ofMantissaAndAccuracy n acc) x)
    (hbits : 52 ≤ n.log2 ∨ e ≤ -1074) (h : Captures m q (x * 2 ^ e)) :
    roundWithAccuracy Format.binary64 s n e acc = .finite s m q hm := by
  obtain ⟨hm53, hq, -, hlead⟩ := hc
  obtain ⟨hlow, hhigh, hinside⟩ := id h
  have hp : (0 : ℚ) < 2 ^ (q - 2) := by positivity
  have hq0 := two_zpow_eq q
  have hq1 := two_zpow_sub_one_eq q
  have hgap : (Decimal.Shortest.lowerGap m q : ℚ) ≤ 2 := by exact_mod_cast lowerGap_le m q
  have hlow' : ((m : ℚ) - 1 / 2) * 2 ^ q ≤
      (4 * m - Decimal.Shortest.lowerGap m q) * 2 ^ (q - 2) := by
    rw [hq0]
    have := mul_le_mul_of_nonneg_right hgap hp.le
    linarith
  have hhigh' : (4 * (m : ℚ) + 2) * 2 ^ (q - 2) = (m + 1 / 2) * 2 ^ q := by
    rw [hq0]
    ring
  have hupper : x * 2 ^ e < 2 ^ 53 * 2 ^ q := by
    have := h.lt_two_zpow hm53
    rwa [zpow_add₀ two_ne_zero, mul_comm (2 ^ q)] at this
  rw [hhigh'] at hhigh hinside
  by_cases hregular : (2 : ℚ) ^ 52 * 2 ^ q ≤ x * 2 ^ e ∨ q = -1074
  · rw [roundWithAccuracy_of_bounds s hm hx hbits hq hregular hupper (hlow'.trans hlow) hhigh
      fun hodd => ⟨hlow'.trans_lt (hinside hodd).1, (hinside hodd).2⟩, if_neg hm53.ne]
  · -- the number lies below a power of two, where the mantissa carries
    obtain ⟨hbelow, hnormal⟩ := not_or.mp hregular
    have hbelow := not_le.mp hbelow
    have hm52 : 2 ^ 52 ≤ m := hlead.resolve_right hnormal
    obtain rfl : m = 2 ^ 52 := by
      by_contra hne
      have hge : (2 ^ 52 + 1 : ℚ) ≤ m := by exact_mod_cast Nat.lt_of_le_of_ne hm52 (Ne.symm hne)
      have := mul_le_mul_of_nonneg_right hge hp.le
      rw [hq0] at hbelow hlow'
      linarith
    have hone : Decimal.Shortest.lowerGap (2 ^ 52) q = 1 := if_pos ⟨rfl, by omega⟩
    rw [hone] at hlow
    rw [hq0] at hbelow
    push_cast at hlow
    rw [roundWithAccuracy_of_bounds s (Nat.two_pow_pos 53) (t := q - 1) hx hbits (by omega)
      (.inl (by rw [hq1]; linarith)) (by rw [hq1]; linarith) (by rw [hq1]; push_cast; linarith)
      (by rw [hq1]; push_cast; linarith) fun hodd => absurd hodd (by decide), if_pos rfl]
    simp only [Int.sub_add_cancel]

section Operations

variable {m m₁ m₂ : Nat} {q e₁ e₂ : Int} {hm : 0 < m} {h₁ : 0 < m₁} {h₂ : 0 < m₂}

theorem mul_of_captures (hc : Canonical (.finite .positive m q hm)) (hbits : 2 ^ 52 ≤ m₁ * m₂)
    (h : Captures m q (m₁ * 2 ^ e₁ * (m₂ * 2 ^ e₂))) :
    UnpackedFloat.mul Format.binary64 (.finite .positive m₁ e₁ h₁) (.finite .positive m₂ e₂ h₂) =
      .finite .positive m q hm := by
  refine roundWithAccuracy_of_captures .positive hc (tracks_exact _)
    (.inl ((Nat.le_log2 (Nat.mul_pos h₁ h₂).ne').mpr hbits)) ?_
  rwa [Nat.cast_mul, zpow_add₀ two_ne_zero, mul_mul_mul_comm]

theorem le_log2_quotient {k : Nat} (h₁ : 0 < m₁) (h₂ : 0 < m₂)
    (h : m₂.log2 + 53 ≤ m₁.log2 + k) : 52 ≤ (m₁ * 2 ^ k / m₂).log2 := by
  have hle : 2 ^ 52 ≤ m₁ * 2 ^ k / m₂ := by
    rw [Nat.le_div_iff_mul_le h₂]
    calc
      2 ^ 52 * m₂ ≤ 2 ^ 52 * 2 ^ (m₂.log2 + 1) := Nat.mul_le_mul_left _ Nat.lt_log2_self.le
      _ = 2 ^ (m₂.log2 + 53) := by rw [← Nat.pow_add]; congr 1; omega
      _ ≤ 2 ^ (m₁.log2 + k) := Nat.pow_le_pow_right Nat.two_pos h
      _ ≤ m₁ * 2 ^ k := by
        rw [Nat.pow_add]
        exact Nat.mul_le_mul_right _ (Nat.log2_self_le h₁.ne')
  exact (Nat.le_log2 (Nat.lt_of_lt_of_le (Nat.two_pow_pos 52) hle).ne').mpr hle

theorem div_of_captures (hc : Canonical (.finite .positive m q hm))
    (h : Captures m q (m₁ * 2 ^ e₁ / (m₂ * 2 ^ e₂))) :
    UnpackedFloat.div Format.binary64 (.finite .positive m₁ e₁ h₁) (.finite .positive m₂ e₂ h₂) =
      .finite .positive m q hm := by
  obtain ⟨t, ht⟩ : ∃ t, t = min (e₁ - e₂)
    (max ((m₁.log2 : Int) + e₁ - (m₂.log2 + e₂) - 53) (-1074)) := ⟨_, rfl⟩
  obtain ⟨k, hk⟩ : ∃ k : Nat, k = (e₁ - e₂ - t).toNat := ⟨_, rfl⟩
  have hcore : divCore Format.binary64 m₁ e₁ m₂ e₂ =
      (m₁ * 2 ^ k / m₂, t, accuracyOfFraction (m₁ * 2 ^ k % m₂) m₂) := by
    have htarget : Format.binary64.targetExponent (totalExponent m₁ e₁ - totalExponent m₂ e₂) =
        max ((m₁.log2 : Int) + e₁ - (m₂.log2 + e₂) - 53) (-1074) := by
      change max ((m₁.log2 : Int) + 1 + e₁ - (m₂.log2 + 1 + e₂) - (53 : Nat))
        (3 - 2 ^ 10 - (53 : Nat)) = _
      norm_num
      omega
    unfold divCore
    simp only [htarget, ← ht, ← hk, Nat.shiftLeft_eq]
  have hbits : 52 ≤ (m₁ * 2 ^ k / m₂).log2 ∨ t ≤ -1074 := by
    by_cases hmin : t ≤ -1074
    · exact .inr hmin
    · exact .inl (le_log2_quotient h₁ h₂ (by omega))
  have hvalue : ((m₁ * 2 ^ k : Nat) : ℚ) / m₂ * 2 ^ t = m₁ * 2 ^ e₁ / (m₂ * 2 ^ e₂) := by
    have hsplit : (2 : ℚ) ^ k * 2 ^ t = 2 ^ e₁ / 2 ^ e₂ := by
      rw [← zpow_natCast, ← zpow_add₀ two_ne_zero, ← zpow_sub₀ two_ne_zero]
      congr 1
      omega
    rw [Nat.cast_mul, Nat.cast_pow, mul_div_mul_comm, ← hsplit]
    push_cast
    ring
  rw [← hvalue] at h
  simp only [UnpackedFloat.div, hcore]
  exact roundWithAccuracy_of_captures .positive hc (tracks_quotient _ h₂) hbits h

end Operations

section Existence

variable {r : Nat} {q : Int} {x : ℚ}

theorem exists_halfEven (hx : 0 ≤ x) : ∃ r, HalfEven x r := by
  have hfloor : (⌊x⌋₊ : ℚ) ≤ x := Nat.floor_le hx
  have hceil : x < ⌊x⌋₊ + 1 := Nat.lt_floor_add_one x
  generalize ⌊x⌋₊ = n at hfloor hceil
  rcases lt_trichotomy x (n + 1 / 2) with h | rfl | h
  · exact ⟨n, by linarith, by linarith, fun _ => ⟨by linarith, h⟩⟩
  · rcases Nat.mod_two_eq_zero_or_one n with heven | hodd
    · exact ⟨n, by linarith, le_rfl, fun h => by omega⟩
    · exact ⟨n + 1, by push_cast; linarith, by push_cast; linarith, fun h => by omega⟩
  · exact ⟨n + 1, by push_cast; linarith, by push_cast; linarith,
      fun _ => ⟨by push_cast; linarith, by push_cast; linarith⟩⟩

theorem captures_of_halfEven (h : HalfEven (x / 2 ^ q) r) (hlead : 2 ^ 52 * 2 ^ q ≤ x) :
    Captures r q x := by
  have hp : (0 : ℚ) < 2 ^ (q - 2) := by positivity
  obtain ⟨hlow, hhigh, hinside⟩ := h
  rw [two_zpow_eq] at hlow hhigh hinside hlead
  rw [le_div_iff₀ (by linarith)] at hlow
  rw [div_le_iff₀ (by linarith)] at hhigh
  rw [lt_div_iff₀ (by linarith), div_lt_iff₀ (by linarith)] at hinside
  by_cases hr : r = 2 ^ 52
  · -- a power of two, below which the floats lie closer
    have hgap : (1 : ℚ) ≤ Decimal.Shortest.lowerGap r q := by
      unfold Decimal.Shortest.lowerGap
      split <;> norm_num
    have hrcast : (r : ℚ) = 2 ^ 52 := by exact_mod_cast hr
    have hless := mul_le_mul_of_nonneg_right hgap hp.le
    rw [hrcast] at hhigh
    refine ⟨?_, ?_, fun hodd => absurd hodd (by rw [hr]; decide)⟩ <;> rw [hrcast] <;> linarith
  · have hgap : (Decimal.Shortest.lowerGap r q : ℚ) = 2 := by
      unfold Decimal.Shortest.lowerGap
      rw [if_neg fun h => hr h.1]
      norm_num
    refine ⟨?_, by linarith, fun hodd => ⟨?_, ?_⟩⟩
    · rw [hgap]
      linarith
    · rw [hgap]
      linarith [(hinside hodd).1]
    · linarith [(hinside hodd).2]

theorem captures_of_halfEven_carry (h : HalfEven (x / 2 ^ q) (2 ^ 53)) (hq : -1074 ≤ q)
    (hupper : x < 2 ^ 53 * 2 ^ q) : Captures (2 ^ 52) (q + 1) x := by
  have hp : (2 : ℚ) ^ q = 2 * 2 ^ (q + 1 - 2) := by
    rw [← two_zpow_sub_one_eq]
    congr 1
    omega
  have hpos : (0 : ℚ) < 2 ^ q := by positivity
  have hone : Decimal.Shortest.lowerGap (2 ^ 52) (q + 1) = 1 := if_pos ⟨rfl, by omega⟩
  have hlow := h.low
  rw [le_div_iff₀ hpos] at hlow
  rw [hp] at hlow hupper hpos
  refine ⟨?_, ?_, fun hodd => absurd hodd (by decide)⟩
  · rw [hone]
    push_cast at hlow ⊢
    linarith
  · push_cast
    linarith

theorem exists_captures (hlow : 2 ^ (-1022 : Int) ≤ x) (htop : x < 2 ^ (1023 : Int)) :
    ∃ (m : Nat) (q : Int) (hm : 0 < m), Canonical (.finite .positive m q hm) ∧ Captures m q x ∧
      2 ^ 53 * |m * 2 ^ q - x| ≤ x := by
  have hxpos : 0 < x := (by positivity : (0 : ℚ) < 2 ^ (-1022 : Int)).trans_le hlow
  obtain ⟨n, hn, hn'⟩ := exists_mem_Ico_zpow hxpos one_lt_two
  obtain ⟨q, rfl⟩ : ∃ q : Int, n = 52 + q := ⟨n - 52, by omega⟩
  have hq : -1022 < 52 + q + 1 := (zpow_lt_zpow_iff_right₀ one_lt_two).mp (hlow.trans_lt hn')
  have hq' : 52 + q < 1023 := (zpow_lt_zpow_iff_right₀ one_lt_two).mp (hn.trans_lt htop)
  have hpos : (0 : ℚ) < 2 ^ q := by positivity
  have hlead : 2 ^ 52 * 2 ^ q ≤ x := by
    rwa [zpow_add₀ two_ne_zero] at hn
  have hupper : x < 2 ^ 53 * 2 ^ q := by
    rw [add_right_comm, zpow_add₀ two_ne_zero] at hn'
    exact hn'
  obtain ⟨r, hround⟩ := exists_halfEven (div_pos hxpos hpos).le
  have hr52 : 2 ^ 52 ≤ r := by
    have hle := ((le_div_iff₀ hpos).mpr hlead).trans hround.high
    have : (2 : ℚ) ^ 52 < r + 1 := by linarith
    exact Nat.lt_succ_iff.mp (by exact_mod_cast this)
  have hr53 : r ≤ 2 ^ 53 := by
    have hlt := hround.low.trans_lt ((div_lt_iff₀ hpos).mpr hupper)
    have : (r : ℚ) < 2 ^ 53 + 1 := by linarith
    exact Nat.lt_succ_iff.mp (by exact_mod_cast this)
  have hnear : 2 ^ 53 * |r * 2 ^ q - x| ≤ x := by
    have hl := (le_div_iff₀ hpos).mp hround.low
    have hh := (div_le_iff₀ hpos).mp hround.high
    have habs : |r * 2 ^ q - x| ≤ 2 ^ q / 2 := abs_le.mpr ⟨by linarith, by linarith⟩
    linarith
  by_cases hr : r = 2 ^ 53
  · subst hr
    refine ⟨2 ^ 52, q + 1, by decide, ⟨by decide, by omega, by omega, .inl (Nat.le_refl _)⟩,
      captures_of_halfEven_carry hround (by omega) hupper, ?_⟩
    have hsame : ((2 ^ 52 : Nat) : ℚ) * 2 ^ (q + 1) = (2 ^ 53 : Nat) * 2 ^ q := by
      rw [zpow_add_one₀ two_ne_zero]
      push_cast
      ring
    rwa [hsame]
  · exact ⟨r, q, by omega, ⟨by omega, by omega, by omega, .inl hr52⟩,
      captures_of_halfEven hround hlead, hnear⟩

end Existence

end MarchingDrill.Binary64
