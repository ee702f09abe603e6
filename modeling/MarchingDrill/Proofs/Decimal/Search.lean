import MarchingDrill.Proofs.Binary64.Capture

/-! The search for the shortest decimal: within its 24 steps it comes upon a multiple of a power of
ten in the interval of the float, and what it returns always lies there. -/

namespace MarchingDrill.Decimal.Shortest

open Binary64 (Captures two_zpow_eq two_zpow_sub_one_eq)

section Scales

variable (a n : Nat) (q i : Int)

theorem zpow_mul_toNat_neg {b : ℚ} (hb : b ≠ 0) (k : Int) :
    b ^ k * b ^ (-k).toNat = b ^ k.toNat := by
  rw [← zpow_natCast, ← zpow_natCast, ← zpow_add₀ hb]
  congr 1
  omega

theorem down_pos : 0 < down q i :=
  Nat.mul_pos (Nat.two_pow_pos _) (Nat.pow_pos (by decide))

theorem up_mul_zpow : (up q i : ℚ) * 10 ^ i = 2 ^ q * down q i := by
  unfold up down
  simp only [Nat.pow_eq]
  push_cast
  rw [← zpow_mul_toNat_neg two_ne_zero q, ← zpow_mul_toNat_neg (by norm_num) i]
  ring

theorem up_le_down_iff : a * up q i ≤ n * down q i ↔ (a : ℚ) * 2 ^ q ≤ n * 10 ^ i := by
  have hten : (0 : ℚ) < 10 ^ i := by positivity
  have hdown : (0 : ℚ) < down q i := by exact_mod_cast down_pos q i
  rw [← Nat.cast_le (α := ℚ), ← mul_le_mul_iff_left₀ hten]
  push_cast
  rw [mul_assoc, up_mul_zpow, ← mul_assoc, mul_right_comm (n : ℚ), mul_le_mul_iff_left₀ hdown]

theorem down_le_up_iff : n * down q i ≤ a * up q i ↔ (n : ℚ) * 10 ^ i ≤ a * 2 ^ q := by
  have hten : (0 : ℚ) < 10 ^ i := by positivity
  have hdown : (0 : ℚ) < down q i := by exact_mod_cast down_pos q i
  rw [← Nat.cast_le (α := ℚ), ← mul_le_mul_iff_left₀ hten]
  push_cast
  rw [mul_assoc (a : ℚ), up_mul_zpow, ← mul_assoc, mul_right_comm (n : ℚ),
    mul_le_mul_iff_left₀ hdown]

theorem up_lt_down_iff : a * up q i < n * down q i ↔ (a : ℚ) * 2 ^ q < n * 10 ^ i := by
  rw [← not_le, ← not_le, down_le_up_iff]

theorem down_lt_up_iff : n * down q i < a * up q i ↔ (n : ℚ) * 10 ^ i < a * 2 ^ q := by
  rw [← not_le, ← not_le, up_le_down_iff]

end Scales

variable {m n : Nat} {q i : Int}

theorem rounds_iff (hm : 0 < m) : rounds m q i n = true ↔ Captures m q (n * 10 ^ i) := by
  have hgap : ((4 * m - lowerGap m q : Nat) : ℚ) = 4 * m - lowerGap m q := by
    have : lowerGap m q ≤ 4 * m := (Binary64.lowerGap_le m q).trans (by omega)
    rw [Nat.cast_sub this]
    push_cast
    rfl
  have hhigh : ((4 * m + 2 : Nat) : ℚ) = 4 * m + 2 := by push_cast; rfl
  unfold rounds
  dsimp only
  split
  · next heven =>
    rw [Bool.and_eq_true, decide_eq_true_iff, decide_eq_true_iff, up_le_down_iff, down_le_up_iff,
      hgap, hhigh]
    exact ⟨fun h => ⟨h.1, h.2, fun hodd => by omega⟩, fun h => ⟨h.low, h.high⟩⟩
  · next hodd =>
    have hodd : m % 2 = 1 := by omega
    rw [Bool.and_eq_true, decide_eq_true_iff, decide_eq_true_iff, up_lt_down_iff, down_lt_up_iff,
      hgap, hhigh]
    exact ⟨fun h => ⟨h.1.le, h.2.le, fun _ => h⟩, fun h => h.inside hodd⟩

theorem hit?_sound {tie : TieRule} (h : hit? tie m q i = some n) :
    0 < n ∧ rounds m q i n = true := by
  unfold hit? at h
  dsimp only at h
  split at h
  · next hbelow habove =>
    obtain ⟨hpos, hrounds⟩ := Bool.and_eq_true_iff.mp hbelow
    split at h <;> cases h
    · exact ⟨Nat.succ_pos _, habove⟩
    · exact ⟨of_decide_eq_true hpos, hrounds⟩
  · next hbelow _ =>
    obtain ⟨hpos, hrounds⟩ := Bool.and_eq_true_iff.mp hbelow
    cases h
    exact ⟨of_decide_eq_true hpos, hrounds⟩
  · next habove =>
    cases h
    exact ⟨Nat.succ_pos _, habove⟩
  · cases h

theorem hit?_isSome (tie : TieRule) (hm : 0 < m) (h : (10 : ℚ) ^ i < 2 ^ (q - 1)) :
    (hit? tie m q i).isSome = true := by
  have hp : (0 : ℚ) < 2 ^ (q - 2) := by positivity
  have hq0 := two_zpow_eq q
  have hq1 := two_zpow_sub_one_eq q
  have hfloor : ((floorOn m q i : Nat) : ℚ) * 10 ^ i ≤ m * 2 ^ q :=
    (down_le_up_iff m _ q i).mp (Nat.div_mul_le_self _ _)
  have hceil : (m : ℚ) * 2 ^ q < (floorOn m q i + 1 : Nat) * 10 ^ i := by
    refine (up_lt_down_iff m _ q i).mp ?_
    rw [Nat.mul_comm (floorOn m q i + 1)]
    exact Nat.lt_mul_div_succ _ (down_pos q i)
  have hcaptures : Captures m q ((floorOn m q i + 1 : Nat) * 10 ^ i) := by
    have hgap : (0 : ℚ) ≤ lowerGap m q := Nat.cast_nonneg _
    have hlow := mul_nonneg hgap hp.le
    push_cast at hceil ⊢
    rw [hq0] at hfloor hceil
    rw [hq1] at h
    exact ⟨by linarith, by linarith, fun _ => ⟨by linarith, by linarith⟩⟩
  unfold hit?
  simp only [(rounds_iff hm).mpr hcaptures]
  split <;> simp_all

theorem search_sound (tie : TieRule) {j : Int} (steps : Nat) (hji : j ≤ i) (hsteps : i < j + steps)
    (hhit : (hit? tie m q j).isSome = true) :
    0 < (search tie m q steps i).digits ∧
      rounds m q (search tie m q steps i).power (search tie m q steps i).digits = true := by
  induction steps generalizing i with
  | zero => omega
  | succ steps ih =>
    unfold search
    cases h : hit? tie m q i with
    | some n => exact hit?_sound h
    | none =>
      have hne : j ≠ i := by
        rintro rfl
        rw [h] at hhit
        cases hhit
      exact ih (by omega) (by push_cast at hsteps; omega)

section Powers

variable {j k : Int}

theorem ten_pow_le_two_pow {a b : Nat} (h : 10 * a ≤ 3 * b) : 10 ^ a ≤ 2 ^ b := by
  refine (Nat.pow_le_pow_iff_left (n := 3) (by decide)).mp ?_
  calc
    (10 ^ a) ^ 3 = (10 ^ 3) ^ a := Nat.pow_right_comm 10 a 3
    _ ≤ (2 ^ 10) ^ a := Nat.pow_le_pow_left (by decide) a
    _ = 2 ^ (10 * a) := (Nat.pow_mul 2 10 a).symm
    _ ≤ 2 ^ (3 * b) := Nat.pow_le_pow_right Nat.two_pos h
    _ = (2 ^ b) ^ 3 := by rw [Nat.mul_comm, Nat.pow_mul]

theorem two_pow_le_ten_pow {a b : Nat} (h : 28 * a ≤ 93 * b) : 2 ^ a ≤ 10 ^ b := by
  refine (Nat.pow_le_pow_iff_left (n := 28) (by decide)).mp ?_
  calc
    (2 ^ a) ^ 28 = 2 ^ (28 * a) := by rw [← Nat.pow_mul, Nat.mul_comm]
    _ ≤ 2 ^ (93 * b) := Nat.pow_le_pow_right Nat.two_pos h
    _ = (2 ^ 93) ^ b := Nat.pow_mul 2 93 b
    _ ≤ (10 ^ 28) ^ b := Nat.pow_le_pow_left (by decide) b
    _ = (10 ^ b) ^ 28 := Nat.pow_right_comm 10 28 b

theorem ten_zpow_le_two_zpow (hpos : 10 * j ≤ 3 * k) (hneg : 93 * j ≤ 28 * k) :
    (10 : ℚ) ^ j ≤ 2 ^ k := by
  rcases Int.le_total 0 j with hj | hj
  · obtain ⟨a, rfl⟩ := Int.eq_ofNat_of_zero_le hj
    obtain ⟨b, rfl⟩ := Int.eq_ofNat_of_zero_le (by omega : 0 ≤ k)
    rw [zpow_natCast, zpow_natCast]
    exact_mod_cast ten_pow_le_two_pow (by omega)
  · rcases Int.le_total 0 k with hk | hk
    · exact (zpow_le_one_of_nonpos₀ (by norm_num) hj).trans (one_le_zpow₀ (by norm_num) hk)
    · obtain ⟨a, ha⟩ := Int.eq_ofNat_of_zero_le (by omega : 0 ≤ -j)
      obtain ⟨b, hb⟩ := Int.eq_ofNat_of_zero_le (by omega : 0 ≤ -k)
      rw [← inv_le_inv₀ (by positivity) (by positivity), ← zpow_neg, ← zpow_neg, ha, hb,
        zpow_natCast, zpow_natCast]
      exact_mod_cast two_pow_le_ten_pow (by omega)

theorem two_zpow_le_ten_zpow (hneg : 3 * k ≤ 10 * j) (hpos : 28 * k ≤ 93 * j) :
    (2 : ℚ) ^ k ≤ 10 ^ j := by
  rw [← inv_le_inv₀ (by positivity) (by positivity), ← zpow_neg, ← zpow_neg]
  exact ten_zpow_le_two_zpow (by omega) (by omega)

end Powers

end Shortest

open Binary64 Shortest

theorem shortest_sound (tie : TieRule) {m : Nat} {q : Int} {s : Float.Model.UnpackedFloat.Sign}
    {hm : 0 < m} (hc : Canonical (.finite s m q hm)) :
    0 < (shortest tie m q).digits ∧
      Captures m q ((shortest tie m q).digits * 10 ^ (shortest tie m q).power) := by
  obtain ⟨hm53, hq, hq', -⟩ := hc
  have hlog : m.log2 ≤ 52 := Nat.le_of_lt_succ ((Nat.log2_lt hm.ne').mpr hm53)
  obtain ⟨i, hi⟩ : ∃ i, i = startPower m q := ⟨_, rfl⟩
  have hpower : (10 : ℚ) ^ (i - 23) < 2 ^ (q - 1) := by
    unfold startPower at hi
    refine (ten_zpow_le_two_zpow (k := q - 2) ?_ ?_).trans_lt
      (zpow_lt_zpow_right₀ one_lt_two (by omega))
    · omega
    · omega
  obtain ⟨hpos, hrounds⟩ := search_sound tie 24 (i := i) (by omega) (by omega)
    (hit?_isSome tie hm hpower)
  have hsearch : shortest tie m q = search tie m q 24 i := by
    rw [hi]
    rfl
  rw [hsearch]
  exact ⟨hpos, (rounds_iff hm).mp hrounds⟩

end MarchingDrill.Decimal
