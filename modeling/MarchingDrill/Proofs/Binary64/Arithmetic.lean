import MarchingDrill.Proofs.Binary64.Rounding

/-! Arithmetic: sums and differences of finite floats and the floats of counts, in units. A result
never passes a number that a float could hold, and is exact where a float can hold it. -/

namespace MarchingDrill.Binary64

open Float.Model Float.Model.UnpackedFloat

/-- A number of units that a float of sufficient range can hold. -/
def Fits (n : Nat) : Prop := ∃ a j, a ≤ 2 ^ 53 ∧ n = a * 2 ^ j

theorem two_pow_le_of_spacing {n : Nat} (h : 0 < spacing n) : 2 ^ 52 * 2 ^ spacing n ≤ n := by
  have hn : n ≠ 0 := by
    rintro rfl
    exact absurd h (by decide)
  have hlog : 52 + spacing n = n.log2 := by
    unfold spacing at h ⊢
    omega
  rw [← Nat.pow_add, hlog]
  exact Nat.log2_self_le hn

theorem lt_of_spacing (n : Nat) : n < 2 ^ 53 * 2 ^ spacing n := by
  have hlog : n.log2 + 1 ≤ 53 + spacing n := by
    unfold spacing
    omega
  calc
    n < 2 ^ (n.log2 + 1) := Nat.lt_log2_self
    _ ≤ 2 ^ (53 + spacing n) := Nat.pow_le_pow_right Nat.two_pos hlog
    _ = 2 ^ 53 * 2 ^ spacing n := Nat.pow_add 2 53 _

theorem le_of_lt_spacing {n a j : Nat} (ha : a ≤ 2 ^ 53) (hj : j < spacing n) :
    a * 2 ^ j ≤ 2 ^ 52 * 2 ^ spacing n := calc
  a * 2 ^ j ≤ 2 ^ 53 * 2 ^ j := Nat.mul_le_mul_right _ ha
  _ = 2 ^ 52 * 2 ^ (j + 1) := by rw [Nat.pow_succ 2 j]; ring
  _ ≤ 2 ^ 52 * 2 ^ spacing n := Nat.mul_le_mul_left _ (Nat.pow_le_pow_right (by decide) hj)

theorem Fits.of_dvd {n z : Nat} (h : 2 ^ spacing n ∣ z) (hzn : z ≤ n) : Fits z := by
  obtain ⟨a, rfl⟩ := h
  have hlt : 2 ^ spacing n * a < 2 ^ spacing n * 2 ^ 53 := by
    rw [Nat.mul_comm _ (2 ^ 53)]
    exact Nat.lt_of_le_of_lt hzn (lt_of_spacing n)
  exact ⟨a, spacing n, (Nat.lt_of_mul_lt_mul_left hlt).le, Nat.mul_comm _ _⟩

theorem Fits.dvd {n z : Nat} (hz : Fits z) (hnz : n ≤ z) : 2 ^ spacing n ∣ z := by
  obtain ⟨a, j, ha, rfl⟩ := hz
  rcases Nat.lt_or_ge j (spacing n) with hj | hj
  · -- the number and `n` are squeezed onto the least number that has the spacing at `n`
    have hn : 2 ^ 52 * 2 ^ spacing n ≤ n := two_pow_le_of_spacing (by omega)
    have hle : a * 2 ^ j ≤ 2 ^ 52 * 2 ^ spacing n := le_of_lt_spacing ha hj
    have heq : a * 2 ^ j = 2 ^ 52 * 2 ^ spacing n := by omega
    exact heq ▸ Nat.dvd_mul_left _ _
  · exact Nat.dvd_mul_left_of_dvd (Nat.pow_dvd_pow 2 hj) a

namespace Nearest

variable {n y z : Nat}

theorem le_of_fits (h : Nearest (spacing n) n y) (hz : Fits z) (hnz : n ≤ z) : y ≤ z :=
  h.le_of_le (hz.dvd hnz) hnz

theorem ge_of_fits (h : Nearest (spacing n) n y) (hz : Fits z) (hzn : z ≤ n) : z ≤ y := by
  obtain ⟨a, j, ha, rfl⟩ := hz
  rcases Nat.lt_or_ge j (spacing n) with hj | hj
  · have hn : 2 ^ 52 * 2 ^ spacing n ≤ n := two_pow_le_of_spacing (by omega)
    exact (le_of_lt_spacing ha hj).trans (h.ge_of_ge (Nat.dvd_mul_left _ _) hn)
  · exact h.ge_of_ge (Nat.dvd_mul_left_of_dvd (Nat.pow_dvd_pow 2 hj) a) hzn

end Nearest

def Rounds (z x : Int) : Prop :=
  ∃ y, Nearest (spacing z.natAbs) z.natAbs y ∧ x = z.sign * y

namespace Rounds

variable {z x w : Int}

theorem le_of_le (h : Rounds z x) (hw : Fits w.natAbs) (hzw : z ≤ w) : x ≤ w := by
  obtain ⟨y, hnear, rfl⟩ := h
  rcases lt_trichotomy z 0 with hz | rfl | hz
  · rw [Int.sign_eq_neg_one_of_neg hz]
    rcases Int.le_total 0 w with hw0 | hw0
    · omega
    · have := hnear.ge_of_fits hw (by omega)
      omega
  · rw [Int.sign_zero, Int.zero_mul]
    exact hzw
  · rw [Int.sign_eq_one_of_pos hz]
    have := hnear.le_of_fits hw (by omega)
    omega

theorem ge_of_ge (h : Rounds z x) (hw : Fits w.natAbs) (hwz : w ≤ z) : w ≤ x := by
  obtain ⟨y, hnear, rfl⟩ := h
  rcases lt_trichotomy z 0 with hz | rfl | hz
  · rw [Int.sign_eq_neg_one_of_neg hz]
    have := hnear.le_of_fits hw (by omega)
    omega
  · rw [Int.sign_zero, Int.zero_mul]
    exact hwz
  · rw [Int.sign_eq_one_of_pos hz]
    rcases Int.le_total w 0 with hw0 | hw0
    · omega
    · have := hnear.ge_of_fits hw (by omega)
      omega

theorem of_fits (hz : Fits z.natAbs) : Rounds z z := by
  refine ⟨z.natAbs, ⟨hz.dvd (Nat.le_refl _), Nat.le_add_right _ _, Nat.le_add_right _ _⟩, ?_⟩
  exact (Int.sign_mul_natAbs z).symm

theorem eq_of_fits (h : Rounds z x) (hz : Fits z.natAbs) : x = z :=
  Int.le_antisymm (h.le_of_le hz (Int.le_refl z)) (h.ge_of_ge hz (Int.le_refl z))

theorem le_add_half (h : Rounds z x) (hz : 0 < z) : 2 * z ≤ 2 * x + 2 ^ spacing z.natAbs := by
  obtain ⟨y, hnear, rfl⟩ := h
  have hge : 2 * z.natAbs ≤ 2 * y + 2 ^ spacing z.natAbs := hnear.ge
  rw [Int.sign_eq_one_of_pos hz]
  have hcast : ((2 ^ spacing z.natAbs : Nat) : Int) = 2 ^ spacing z.natAbs := by push_cast; rfl
  omega

end Rounds

theorem Canonical.fits {u : UnpackedFloat} (h : Canonical u) : Fits (units u).natAbs := by
  cases u with
  | infinity | notANumber => cases h
  | zero s => exact ⟨0, 0, by decide, rfl⟩
  | finite s m e hm =>
    refine ⟨m, (e + 1074).toNat, h.1.le, ?_⟩
    cases s <;> simp only [units_finite, Sign.apply, Int.natAbs_neg, Int.natAbs_natCast]

theorem fits_value {x : Float} (hx : x.isFinite = true) : Fits (value x).natAbs :=
  (unpack_canonical hx).fits

theorem normalize_spec (s : Sign) {m e : Int} (he : -1074 ≤ e)
    (hrange : (m * 2 ^ (e + 1074).toNat).natAbs.log2 < 2097) :
    Canonical (UnpackedFloat.normalize Format.binary64 m e s) ∧
      Rounds (m * 2 ^ (e + 1074).toNat)
        (units (UnpackedFloat.normalize Format.binary64 m e s)) := by
  have habs : (m * 2 ^ (e + 1074).toNat).natAbs = m.natAbs * 2 ^ (e + 1074).toNat := by
    rw [Int.natAbs_mul, Int.natAbs_pow]
    rfl
  have hsign : (m * 2 ^ (e + 1074).toNat).sign = m.sign := by
    rw [Int.sign_mul, Int.sign_eq_one_of_pos (by positivity : (0 : Int) < 2 ^ (e + 1074).toNat),
      Int.mul_one]
  unfold UnpackedFloat.normalize Rounds
  rw [habs] at hrange
  rw [habs, hsign]
  rcases lt_trichotomy m 0 with hm | rfl | hm
  · rw [compare_lt_iff_lt.mpr hm]
    have hnat : (-m).toNat = m.natAbs := by omega
    rw [hnat]
    obtain ⟨hc, y, hnear, hunits⟩ := round_spec .negative (by omega) he hrange
    refine ⟨hc, y, hnear, hunits.trans ?_⟩
    rw [Int.sign_eq_neg_one_of_neg hm]
    simp only [Sign.apply]
    omega
  · rw [compare_eq_iff_eq.mpr rfl]
    refine ⟨trivial, 0, ?_, rfl⟩
    rw [Int.natAbs_zero, Nat.zero_mul]
    exact ⟨Nat.dvd_zero _, Nat.zero_le _, Nat.zero_le _⟩
  · rw [compare_gt_iff_gt.mpr hm]
    have hnat : m.toNat = m.natAbs := by omega
    rw [hnat]
    obtain ⟨hc, y, hnear, hunits⟩ := round_spec .positive (by omega) he hrange
    refine ⟨hc, y, hnear, hunits.trans ?_⟩
    rw [Int.sign_eq_one_of_pos hm]
    simp only [Sign.apply]
    omega

theorem apply_decreaseExponent (s : Sign) (m : Nat) {d e : Int} (hd : -1074 ≤ d) (hde : d ≤ e) :
    s.apply ((decreaseExponent m e d).1 : Nat) * 2 ^ (d + 1074).toNat =
      s.apply (m * 2 ^ (e + 1074).toNat : Nat) := by
  have hsplit : (e + 1074).toNat = (e - d).toNat + (d + 1074).toNat := by omega
  have hnat : (m <<< (e - d).toNat) * 2 ^ (d + 1074).toNat = m * 2 ^ (e + 1074).toNat := by
    rw [Nat.shiftLeft_eq, Nat.mul_assoc, ← Nat.pow_add, ← hsplit]
  change s.apply ((m <<< (e - d).toNat : Nat) : Int) * _ = _
  rw [← hnat, Nat.cast_mul, Nat.cast_pow]
  cases s with
  | negative => exact Int.neg_mul _ _
  | positive => rfl

theorem units_neg (u : UnpackedFloat) : units u.neg = -units u := by
  cases u with
  | infinity | notANumber | zero => rfl
  | finite s m e hm =>
    cases s with
    | positive => rfl
    | negative => exact (Int.neg_neg _).symm

theorem Canonical.neg {u : UnpackedFloat} (h : Canonical u) : Canonical u.neg := by
  cases u with
  | infinity | notANumber => cases h
  | zero => trivial
  | finite => exact h

theorem add_spec {u v : UnpackedFloat} (hu : Canonical u) (hv : Canonical v)
    (hrange : (units u + units v).natAbs.log2 < 2097) :
    Canonical (u.add Format.binary64 v) ∧
      Rounds (units u + units v) (units (u.add Format.binary64 v)) := by
  cases u with
  | infinity | notANumber => cases hu
  | zero s =>
    have hzero : units (.zero s) + units v = units v := Int.zero_add _
    rw [hzero]
    cases v with
    | infinity | notANumber => cases hv
    | zero s' =>
      cases s <;> cases s' <;> exact ⟨trivial, .of_fits ⟨0, 0, by decide, rfl⟩⟩
    | finite s' n e hn => exact ⟨hv, .of_fits hv.fits⟩
  | finite s m d hm =>
    cases v with
    | infinity | notANumber => cases hv
    | zero s' =>
      have hzero : units (.finite s m d hm) + units (.zero s') = units (.finite s m d hm) :=
        Int.add_zero _
      rw [hzero]
      exact ⟨hu, .of_fits hu.fits⟩
    | finite s' n e hn =>
      -- both mantissas are brought to the lower exponent and added there
      have hmin : -1074 ≤ min d e := Int.le_min.mpr ⟨hu.2.1, hv.2.1⟩
      have hunits := congrArg₂ (· + ·) (apply_decreaseExponent s m hmin (Int.min_le_left d e))
        (apply_decreaseExponent s' n hmin (Int.min_le_right d e))
      simp only [← Int.add_mul, ← units_finite _ _ _ hm, ← units_finite _ _ _ hn] at hunits
      rw [← hunits] at hrange ⊢
      exact normalize_spec .positive hmin hrange

theorem sub_eq_add_neg (u v : UnpackedFloat) :
    u.sub Format.binary64 v = u.add Format.binary64 v.neg := by
  cases u <;> cases v <;> try rfl
  rename_i s m d hm s' n e hn
  have hsign : s'.apply ((decreaseExponent n e (min d e)).1 : Nat) =
      -(-s').apply ((decreaseExponent n e (min d e)).1 : Nat) := by
    cases s' with
    | negative => rfl
    | positive => exact (Int.neg_neg _).symm
  simp only [UnpackedFloat.sub, UnpackedFloat.add, UnpackedFloat.neg, hsign, Int.sub_neg]

theorem sub_spec {u v : UnpackedFloat} (hu : Canonical u) (hv : Canonical v)
    (hrange : (units u - units v).natAbs.log2 < 2097) :
    Canonical (u.sub Format.binary64 v) ∧
      Rounds (units u - units v) (units (u.sub Format.binary64 v)) := by
  rw [Int.sub_eq_add_neg, ← units_neg] at hrange ⊢
  rw [sub_eq_add_neg]
  exact add_spec hu hv.neg hrange

theorem Canonical.isFinite {u : UnpackedFloat} (h : Canonical u) : u.isFinite = true := by
  cases u with
  | infinity | notANumber => cases h
  | zero | finite => rfl

theorem ofModel_pack {u : UnpackedFloat} (h : Canonical u) :
    (Float.ofModel (Float.Model.pack u)).isFinite = true ∧
      value (Float.ofModel (Float.Model.pack u)) = units u := by
  have hunpack := unpack_pack h
  refine ⟨?_, congrArg units hunpack⟩
  change (Float.Model.pack u).unpack.isFinite = true
  rw [hunpack]
  exact h.isFinite

section Float

variable {x y : Float}

theorem value_sub (hx : x.isFinite = true) (hy : y.isFinite = true)
    (hrange : (value x - value y).natAbs.log2 < 2097) :
    (x - y).isFinite = true ∧ Rounds (value x - value y) (value (x - y)) := by
  obtain ⟨hcanonical, hrounds⟩ := sub_spec (unpack_canonical hx) (unpack_canonical hy) hrange
  obtain ⟨hfinite, hvalue⟩ := ofModel_pack hcanonical
  exact ⟨hfinite, hvalue ▸ hrounds⟩

theorem value_add (hx : x.isFinite = true) (hy : y.isFinite = true)
    (hrange : (value x + value y).natAbs.log2 < 2097) :
    (x + y).isFinite = true ∧ Rounds (value x + value y) (value (x + y)) := by
  obtain ⟨hcanonical, hrounds⟩ := add_spec (unpack_canonical hx) (unpack_canonical hy) hrange
  obtain ⟨hfinite, hvalue⟩ := ofModel_pack hcanonical
  exact ⟨hfinite, hvalue ▸ hrounds⟩

@[irreducible]
def one : Nat := 2 ^ 1074

theorem one_eq : one = 2 ^ 1074 := by
  unfold one
  rfl

theorem one_units_pos : 0 < one := by
  obtain ⟨j, hone⟩ : ∃ j, one = 2 ^ j := ⟨1074, one_eq⟩
  rw [hone]
  exact Nat.two_pow_pos j

theorem two_pow_dvd_one {k : Nat} (h : k ≤ 1074) : 2 ^ k ∣ one := by
  obtain ⟨j, hj, hone⟩ : ∃ j, k ≤ j ∧ one = 2 ^ j := ⟨1074, h, one_eq⟩
  rw [hone]
  exact Nat.pow_dvd_pow 2 hj

theorem log2_le_of_le {n a k : Nat} (h : n ≤ 2 ^ a * 2 ^ k) : n.log2 ≤ a + k := by
  rcases Nat.eq_zero_or_pos n with rfl | hpos
  · exact Nat.zero_le _
  · refine Nat.le_of_lt_succ ((Nat.log2_lt hpos.ne').mpr ?_)
    calc
      n ≤ 2 ^ a * 2 ^ k := h
      _ = 2 ^ (a + k) := (Nat.pow_add 2 a k).symm
      _ < 2 ^ (a + k + 1) := Nat.pow_lt_pow_right Nat.one_lt_two (Nat.lt_succ_self _)

theorem log2_lt_of_le {n : Nat} (h : n ≤ 2 ^ 33 * one) : n.log2 < 2097 := by
  rw [one_eq] at h
  exact Nat.lt_of_le_of_lt (log2_le_of_le h) (by decide)

theorem value_ofModel_normalize {n : Nat} (hn : n ≤ 2 ^ 53) :
    let x := Float.ofModel (.pack (UnpackedFloat.normalize Format.binary64 n 0 .positive))
    x.isFinite = true ∧ value x = (n * one : Nat) := by
  have hfits : Fits (n * one) := ⟨n, 1074, hn, by rw [one_eq]⟩
  have hunits : (n : Int) * 2 ^ (0 + 1074 : Int).toNat = (n * one : Nat) := by
    rw [one_eq, Nat.cast_mul, Nat.cast_pow]
    rfl
  have hlog : (n * one).log2 < 2097 := by
    rw [one_eq]
    exact Nat.lt_of_le_of_lt (log2_le_of_le (Nat.mul_le_mul_right _ hn)) (by decide)
  have hspec := @normalize_spec .positive n 0 (by decide)
  rw [hunits] at hspec
  obtain ⟨hcanonical, hrounds⟩ := hspec hlog
  obtain ⟨hfinite, hvalue⟩ := ofModel_pack hcanonical
  exact ⟨hfinite, hvalue.trans (hrounds.eq_of_fits hfits)⟩

theorem value_toFloat (n : UInt32) :
    n.toFloat.isFinite = true ∧ value n.toFloat = (n.toNat * one : Nat) := by
  have hn : n.toNat < 2 ^ 32 := n.toNat_lt
  exact value_ofModel_normalize (by omega)

end Float

section Slack

/-- The units of 1e-9, the slack of beats and the width within which whole numbers are snapped to.
-/
@[irreducible]
def slackUnits : Nat := 4835703278458517 * 2 ^ 992

theorem slackUnits_eq : slackUnits = 4835703278458517 * 2 ^ 992 := by
  unfold slackUnits
  rfl

theorem value_slack : (1e-9 : Float).isFinite = true ∧ value 1e-9 = slackUnits := by
  have hunpack : (1e-9 : Float).toModel.unpack =
      .finite .positive 4835703278458517 (-82) (by decide) := rfl
  have hexp : (-82 + 1074 : Int).toNat = 992 := rfl
  refine ⟨rfl, ?_⟩
  rw [value, hunpack, units_finite, hexp, slackUnits_eq, UnpackedFloat.Sign.apply]

theorem mul_two_pow_lt {m a k : Nat} (hm : m < 2 ^ a) {n : Nat} (hn : a + k ≤ n) :
    m * 2 ^ k < 2 ^ n := calc
  m * 2 ^ k < 2 ^ a * 2 ^ k := Nat.mul_lt_mul_of_pos_right hm (Nat.two_pow_pos k)
  _ = 2 ^ (a + k) := (Nat.pow_add 2 a k).symm
  _ ≤ 2 ^ n := Nat.pow_le_pow_right Nat.two_pos hn

theorem slackUnits_lt_one : slackUnits < one := by
  rw [slackUnits_eq, one_eq]
  exact mul_two_pow_lt (by decide : 4835703278458517 < 2 ^ 53) (by decide)

theorem two_mul_slackUnits_lt_one : 2 * slackUnits < one := by
  rw [slackUnits_eq, one_eq, ← Nat.mul_assoc]
  exact mul_two_pow_lt (by decide : 2 * 4835703278458517 < 2 ^ 54) (by decide)

end Slack

end MarchingDrill.Binary64
