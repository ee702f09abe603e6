import MarchingDrill.Proofs.Binary64.Capture
import MarchingDrill.Proofs.Binary64.Unique

/-! Scientific notation: the float that is read from a whole number times a power of ten is the one
whose interval holds this product, on both ways by which it is computed. -/

namespace MarchingDrill.Binary64

open Float.Model Float.Model.UnpackedFloat

variable {c m : Nat} {p q : Int} {hm : 0 < m}

theorem ofScientific_of_captures (hc : Canonical (.finite .positive m q hm)) (hpos : 0 < c)
    (htop : p ≤ 2 ^ 11) (hbottom : -2 ^ 11 ≤ p + c.log2) (h : Captures m q (c * 10 ^ p)) :
    UnpackedFloat.ofScientific Format.binary64 c p = .finite .positive m q hm := by
  have hbits : Format.binary64.exponentBits = 11 := rfl
  unfold UnpackedFloat.ofScientific
  rw [dif_neg hpos.ne', hbits, if_neg (by omega), if_neg (by omega)]
  split
  · next hp =>
    refine mul_of_captures hc ?_ ?_
    · change 2 ^ 52 ≤ (c <<< 53) * 10 ^ p.toNat
      have : 2 ^ 53 ≤ c <<< 53 := by
        rw [Nat.shiftLeft_eq]
        exact Nat.le_mul_of_pos_left _ hpos
      have := Nat.mul_le_mul this (Nat.one_le_pow p.toNat 10 (by decide))
      omega
    · obtain ⟨k, rfl⟩ := Int.eq_ofNat_of_zero_le hp
      have hvalue : ((c <<< 53 : Nat) : ℚ) * 2 ^ (-53 : Int) * ((10 ^ k : Nat) * 2 ^ (0 : Int)) =
          c * 10 ^ (k : Int) := by
        rw [Nat.shiftLeft_eq, zpow_natCast]
        push_cast
        norm_num
        ring
      change Captures m q
        (((c <<< 53 : Nat) : ℚ) * 2 ^ (-53 : Int) * ((10 ^ k : Nat) * 2 ^ (0 : Int)))
      rwa [hvalue]
  · next hp =>
    refine div_of_captures hc ?_
    obtain ⟨k, hk⟩ : ∃ k : Nat, p = -k := ⟨(-p).toNat, by omega⟩
    subst hk
    have : (c : ℚ) * 2 ^ (0 : Int) / ((10 ^ k : Nat) * 2 ^ (0 : Int)) = c * 10 ^ (-k : Int) := by
      rw [zpow_neg, zpow_natCast]
      push_cast
      norm_num
      rfl
    rwa [Int.neg_neg, Int.toNat_natCast, this]

theorem unpack_of_value {x : Float} (hx : x.isFinite = true) (hc : 0 < c)
    (hvalue : value x = (c * one : Nat)) :
    ∃ m q hm, x.toModel.unpack = .finite .positive m q hm ∧ 2 ^ 52 ≤ m ∧ (m : ℚ) * 2 ^ q = c := by
  have hcanonical := unpack_canonical hx
  obtain ⟨i, hi, hi52⟩ : ∃ i : Nat, one = 2 ^ i ∧ i = 1074 := ⟨1074, one_eq, rfl⟩
  have hpos : 0 < c * 2 ^ i := Nat.mul_pos hc (Nat.two_pow_pos i)
  rw [hi] at hvalue
  unfold value at hvalue
  cases h : x.toModel.unpack with
  | infinity | notANumber =>
    rw [h] at hcanonical
    cases hcanonical
  | zero =>
    rw [h] at hvalue
    have : (0 : Int) = (c * 2 ^ i : Nat) := hvalue
    omega
  | finite s m q hm =>
    rw [h] at hvalue hcanonical
    obtain ⟨hm53, hq, -, hlead⟩ := hcanonical
    rw [units_finite] at hvalue
    cases s with
    | negative =>
      have : -((m * 2 ^ (q + 1074).toNat : Nat) : Int) = (c * 2 ^ i : Nat) := hvalue
      omega
    | positive =>
      have hnat : m * 2 ^ (q + 1074).toNat = c * 2 ^ i := Int.ofNat.inj hvalue
      refine ⟨m, q, hm, rfl, hlead.resolve_right ?_, ?_⟩
      · rintro rfl
        have hle : 2 ^ 53 ≤ m := by
          calc
            2 ^ 53 ≤ 2 ^ i := Nat.pow_le_pow_right Nat.two_pos (by omega)
            _ ≤ c * 2 ^ i := Nat.le_mul_of_pos_left _ hc
            _ = m := by rw [← hnat]; exact Nat.mul_one m
        omega
      · have hcast : (m : ℚ) * 2 ^ (q + 1074).toNat = c * 2 ^ i := by exact_mod_cast hnat
        have hshift : (2 : ℚ) ^ (q + 1074).toNat = 2 ^ q * 2 ^ i := by
          rw [← zpow_natCast, ← zpow_natCast, ← zpow_add₀ two_ne_zero]
          congr 1
          omega
        rw [hshift, ← mul_assoc] at hcast
        exact mul_right_cancel₀ (by positivity) hcast

theorem value_toUInt64 (hc : c < 2 ^ 53) :
    c.toUInt64.toFloat.isFinite = true ∧ value c.toUInt64.toFloat = (c * one : Nat) := by
  have hword : c.toUInt64.toNat = c := Nat.mod_eq_of_lt (by omega)
  obtain ⟨hfinite, hvalue⟩ := value_ofModel_normalize (n := c.toUInt64.toNat) (by omega)
  exact ⟨hfinite, hvalue.trans (by rw [hword])⟩

def isWhole (n : Nat) : UnpackedFloat → Bool
  | .finite .positive m q _ => 2 ^ 52 ≤ m && m * 2 ^ q.toNat == n * 2 ^ (-q).toNat
  | _ => false

theorem eq_of_isWhole {n : Nat} {u : UnpackedFloat} (h : isWhole n u = true) :
    ∃ m q hm, u = .finite .positive m q hm ∧ 2 ^ 52 ≤ m ∧ (m : ℚ) * 2 ^ q = n := by
  unfold isWhole at h
  split at h
  · next m q hm =>
    obtain ⟨hm52, hmul⟩ := Bool.and_eq_true_iff.mp h
    have hcast : (m : ℚ) * 2 ^ q.toNat = n * 2 ^ (-q).toNat := by exact_mod_cast beq_iff_eq.mp hmul
    have hsplit : (2 : ℚ) ^ q.toNat = 2 ^ q * 2 ^ (-q).toNat := by
      rw [← zpow_natCast, ← zpow_natCast, ← zpow_add₀ two_ne_zero]
      congr 1
      omega
    rw [hsplit, ← mul_assoc] at hcast
    exact ⟨m, q, hm, rfl, of_decide_eq_true hm52, mul_right_cancel₀ (by positivity) hcast⟩
  · cases h

theorem isWhole_powerOfTen : ∀ k : Fin Float.exactlyRepresentablePowersOfTen.size,
    isWhole (10 ^ k.val)
      (getElem Float.exactlyRepresentablePowersOfTen k.val k.isLt).toModel.unpack = true := by
  decide +kernel

theorem unpack_ofScientific (hc : Canonical (.finite .positive m q hm)) (hpos : 0 < c)
    (htop : p ≤ 2 ^ 11) (hbottom : -2 ^ 11 ≤ p + c.log2) (h : Captures m q (c * 10 ^ p)) :
    (Float.ofScientific c (p < 0) p.natAbs).toModel.unpack = .finite .positive m q hm := by
  unfold Float.ofScientific
  split
  · next hfast =>
    obtain ⟨hfinite, hvalue⟩ := value_toUInt64 hfast.1
    obtain ⟨m₁, e₁, h₁, hunpack₁, hm₁, hc₁⟩ := unpack_of_value hfinite hpos hvalue
    obtain ⟨m₂, e₂, h₂, hunpack₂, hm₂, hc₂⟩ := eq_of_isWhole
      (isWhole_powerOfTen ⟨p.natAbs, Nat.lt_succ_of_le hfast.2⟩)
    have hbits : 2 ^ 52 ≤ m₁ * m₂ := hm₁.trans (Nat.le_mul_of_pos_right _ h₂)
    have hm₂' : (m₂ : ℚ) * 2 ^ e₂ = 10 ^ p.natAbs := by exact_mod_cast hc₂
    split
    · next hp =>
      have hp : p < 0 := of_decide_eq_true hp
      have hvalue : (m₁ : ℚ) * 2 ^ e₁ / (m₂ * 2 ^ e₂) = c * 10 ^ p := by
        rw [hc₁, hm₂', ← zpow_natCast, show p = -(p.natAbs : Int) by omega, zpow_neg,
          Int.natAbs_neg, Int.natAbs_natCast]
        rfl
      change (Float.Model.pack (UnpackedFloat.div Format.binary64
        c.toUInt64.toFloat.toModel.unpack _)).unpack = _
      rw [hunpack₁, hunpack₂, div_of_captures hc (hvalue ▸ h), unpack_pack hc]
    · next hp =>
      have hp : ¬p < 0 := by simpa using hp
      have hvalue : (m₁ : ℚ) * 2 ^ e₁ * (m₂ * 2 ^ e₂) = c * 10 ^ p := by
        rw [hc₁, hm₂', ← zpow_natCast, show (p.natAbs : Int) = p by omega]
      change (Float.Model.pack (UnpackedFloat.mul Format.binary64
        c.toUInt64.toFloat.toModel.unpack _)).unpack = _
      rw [hunpack₁, hunpack₂, mul_of_captures hc hbits (hvalue ▸ h), unpack_pack hc]
  · have hexponent : (if decide (p < 0) = true then Int.negOfNat p.natAbs
        else Int.ofNat p.natAbs) = p := by
      by_cases hp : p < 0
      · rw [if_pos (decide_eq_true hp), Int.negOfNat_eq, Int.ofNat_eq_natCast]
        omega
      · rw [if_neg (by simpa using hp), Int.ofNat_eq_natCast]
        omega
    change (Float.Model.pack (UnpackedFloat.ofScientific Format.binary64 c _)).unpack = _
    rw [hexponent, ofScientific_of_captures hc hpos htop hbottom h, unpack_pack hc]

end MarchingDrill.Binary64
