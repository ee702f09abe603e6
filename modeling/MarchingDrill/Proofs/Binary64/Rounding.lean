import MarchingDrill.Proofs.Binary64.Value

/-! Rounding: mantissas that lose bits are rounded half to even, so that the float that rounding
makes of a number of units is a nearest multiple of the spacing that floats have at that number. -/

namespace MarchingDrill.Binary64

open Float.Model Float.Model.UnpackedFloat

structure Nearest (k n y : Nat) : Prop where
  dvd : 2 ^ k ∣ y
  le : 2 * y ≤ 2 * n + 2 ^ k
  ge : 2 * n ≤ 2 * y + 2 ^ k

namespace Nearest

variable {k n y z : Nat}

theorem le_of_le (h : Nearest k n y) (hz : 2 ^ k ∣ z) (hnz : n ≤ z) : y ≤ z := by
  obtain ⟨a, rfl⟩ := h.dvd
  obtain ⟨c, rfl⟩ := hz
  have hpos : 0 < 2 ^ k := Nat.two_pow_pos k
  have hle := h.le
  refine Nat.mul_le_mul_left _ (Nat.le_of_not_lt ?_)
  intro hlt
  have hmul := Nat.mul_le_mul_left (2 ^ k) (Nat.succ_le_of_lt hlt)
  rw [Nat.mul_succ] at hmul
  omega

theorem ge_of_ge (h : Nearest k n y) (hz : 2 ^ k ∣ z) (hzn : z ≤ n) : z ≤ y := by
  obtain ⟨a, rfl⟩ := h.dvd
  obtain ⟨c, rfl⟩ := hz
  have hpos : 0 < 2 ^ k := Nat.two_pow_pos k
  have hge := h.ge
  refine Nat.mul_le_mul_left _ (Nat.le_of_not_lt ?_)
  intro hlt
  have hmul := Nat.mul_le_mul_left (2 ^ k) (Nat.succ_le_of_lt hlt)
  rw [Nat.mul_succ] at hmul
  omega

theorem scale (h : Nearest k n y) (j : Nat) : Nearest (k + j) (n * 2 ^ j) (y * 2 ^ j) where
  dvd := by
    rw [Nat.pow_add]
    exact Nat.mul_dvd_mul_right h.dvd _
  le := by
    have hle := Nat.mul_le_mul_right (2 ^ j) h.le
    rwa [Nat.add_mul, Nat.mul_assoc, Nat.mul_assoc, ← Nat.pow_add] at hle
  ge := by
    have hge := Nat.mul_le_mul_right (2 ^ j) h.ge
    rwa [Nat.add_mul, Nat.mul_assoc, Nat.mul_assoc, ← Nat.pow_add] at hge

end Nearest

structure HalfEven (x : ℚ) (r : Nat) : Prop where
  low : (r : ℚ) - 1 / 2 ≤ x
  high : x ≤ r + 1 / 2
  inside : r % 2 = 1 → (r : ℚ) - 1 / 2 < x ∧ x < r + 1 / 2

namespace HalfEven

variable {x : ℚ} {r r' : Nat}

theorem le (h : HalfEven x r) (h' : HalfEven x r') : r' ≤ r := by
  by_contra hgt
  have hlt : r < r' := Nat.lt_of_not_le hgt
  have hlow := h'.low
  have hhigh := h.high
  obtain rfl : r' = r + 1 := by
    have : (r' : ℚ) ≤ (r + 1 : Nat) := by
      push_cast
      linarith
    exact Nat.le_antisymm (by exact_mod_cast this) hlt
  push_cast at hlow
  rcases Nat.mod_two_eq_zero_or_one r with heven | hodd
  · have hstrict := (h'.inside (by omega)).1
    push_cast at hstrict
    linarith
  · have hstrict := (h.inside hodd).2
    linarith

theorem eq (h : HalfEven x r) (h' : HalfEven x r') : r = r' :=
  Nat.le_antisymm (h'.le h) (h.le h')

end HalfEven

/-- What an extended mantissa knows of a number: the whole part, whether the rest is a half or
more, and whether the rest is anything but nothing and a half. -/
structure Tracks (em : ExtendedMantissa) (x : ℚ) : Prop where
  le : (em.mantissa : ℚ) ≤ x
  lt : x < em.mantissa + 1
  round : em.roundBit = true ↔ (em.mantissa : ℚ) + 1 / 2 ≤ x
  sticky : em.stickyBit = false ↔ x = em.mantissa ∨ x = em.mantissa + 1 / 2

theorem Tracks.shiftRightOne {em : ExtendedMantissa} {x : ℚ} (h : Tracks em x) :
    Tracks em.shiftRightOne (x / 2) := by
  obtain ⟨hle, hlt, hround, hsticky⟩ := h
  have hsplit : (em.mantissa : ℚ) = 2 * (em.mantissa / 2 : Nat) + (em.mantissa % 2 : Nat) := by
    exact_mod_cast (Nat.div_add_mod em.mantissa 2).symm
  have hshift : em.shiftRightOne =
      ⟨em.mantissa / 2, em.mantissa % 2 != 0, em.roundBit || em.stickyBit⟩ := rfl
  -- the new sticky bit is off when the number is whole
  have hwhole : (em.roundBit || em.stickyBit) = false ↔ x = em.mantissa := by
    rw [Bool.or_eq_false_iff, hsticky, ← Bool.not_eq_true, hround]
    constructor
    · rintro ⟨hbelow, rfl | rfl⟩
      · rfl
      · exact absurd le_rfl hbelow
    · rintro rfl
      exact ⟨by linarith, .inl rfl⟩
  rw [hshift]
  rcases Nat.mod_two_eq_zero_or_one em.mantissa with hmod | hmod <;>
    rw [hmod] at hsplit ⊢ <;> push_cast at hsplit
  · refine ⟨by linarith, by linarith, ?_, hwhole.trans ?_⟩
    · refine iff_of_false Bool.false_ne_true ?_
      change ¬((em.mantissa / 2 : Nat) : ℚ) + 1 / 2 ≤ x / 2
      linarith
    · change _ ↔ x / 2 = (em.mantissa / 2 : Nat) ∨ x / 2 = (em.mantissa / 2 : Nat) + 1 / 2
      constructor
      · exact fun h => .inl (by linarith)
      · rintro (h | h) <;> linarith
  · refine ⟨by linarith, by linarith, ?_, hwhole.trans ?_⟩
    · refine iff_of_true rfl ?_
      change ((em.mantissa / 2 : Nat) : ℚ) + 1 / 2 ≤ x / 2
      linarith
    · change _ ↔ x / 2 = (em.mantissa / 2 : Nat) ∨ x / 2 = (em.mantissa / 2 : Nat) + 1 / 2
      constructor
      · exact fun h => .inr (by linarith)
      · rintro (h | h) <;> linarith

theorem Tracks.shiftRight {em : ExtendedMantissa} {x : ℚ} (h : Tracks em x) (k : Nat) :
    Tracks (em >>> k) (x / 2 ^ k) := by
  induction k with
  | zero => simpa [HShiftRight.hShiftRight, Nat.repeat] using h
  | succ k ih =>
    have hpow : x / 2 ^ (k + 1) = x / 2 ^ k / 2 := by rw [pow_succ, div_div]
    rw [hpow]
    exact ih.shiftRightOne

theorem tracks_exact (n : Nat) : Tracks (ExtendedMantissa.ofMantissaAndAccuracy n .exact) n := by
  constructor <;> simp [ExtendedMantissa.ofMantissaAndAccuracy]

theorem Tracks.halfEven {em : ExtendedMantissa} {x : ℚ} (h : Tracks em x) :
    HalfEven x em.roundedMantissa := by
  obtain ⟨hle, hlt, hround, hsticky⟩ := h
  rcases em with ⟨n, round, sticky⟩
  simp only at hle hlt hround hsticky
  rcases round with _ | _ <;> rcases sticky with _ | _
  · have hbelow : x < n + 1 / 2 := by simpa using hround
    have hx : x = n := (hsticky.mp rfl).resolve_right hbelow.ne
    change HalfEven x n
    exact ⟨by linarith, by linarith, fun _ => ⟨by linarith, by linarith⟩⟩
  · have hbelow : x < n + 1 / 2 := by simpa using hround
    change HalfEven x n
    exact ⟨by linarith, by linarith, fun _ => ⟨by linarith, by linarith⟩⟩
  · have habove : (n : ℚ) + 1 / 2 ≤ x := by simpa using hround
    have hx : x = n + 1 / 2 := (hsticky.mp rfl).resolve_left (by linarith)
    change HalfEven x (n + n % 2)
    rcases Nat.mod_two_eq_zero_or_one n with hmod | hmod <;> rw [hmod]
    · exact ⟨by push_cast; linarith, by push_cast; linarith, fun _ => by omega⟩
    · exact ⟨by push_cast; linarith, by push_cast; linarith, fun _ => by omega⟩
  · have habove : (n : ℚ) + 1 / 2 ≤ x := by simpa using hround
    have hne : x ≠ n + 1 / 2 := fun h => absurd (hsticky.mpr (.inr h)) (by decide)
    have hstrict := lt_of_le_of_ne habove hne.symm
    change HalfEven x (n + 1)
    exact ⟨by push_cast; linarith, by push_cast; linarith,
      fun _ => ⟨by push_cast; linarith, by push_cast; linarith⟩⟩

theorem nearest_roundedMantissa (m k : Nat) : Nearest k m
    ((ExtendedMantissa.ofMantissaAndAccuracy m .exact >>> k).roundedMantissa * 2 ^ k) := by
  have h := ((tracks_exact m).shiftRight k).halfEven
  obtain ⟨r, hr⟩ : ∃ r,
    (ExtendedMantissa.ofMantissaAndAccuracy m .exact >>> k).roundedMantissa = r := ⟨_, rfl⟩
  rw [hr] at h ⊢
  have hpos : (0 : ℚ) < 2 ^ k := by positivity
  have hlow := (le_div_iff₀ hpos).mp h.low
  have hhigh := (div_le_iff₀ hpos).mp h.high
  refine ⟨Nat.dvd_mul_left _ _, ?_, ?_⟩ <;> rw [← Nat.cast_le (α := ℚ)] <;> push_cast <;> linarith

theorem targetExponent_eq (m : Nat) (e : Int) :
    Format.binary64.targetExponent (totalExponent m e) = max ((m.log2 : Int) + e - 52) (-1074) := by
  change max ((m.log2 : Int) + 1 + e - (53 : Nat)) (3 - 2 ^ 10 - (53 : Nat)) = _
  norm_num
  omega

theorem shiftToExponent_eq (m : Nat) {e t : Int} {k : Nat} (h : (t - e).toNat = k) :
    shiftToExponent m e .exact t =
      (ExtendedMantissa.ofMantissaAndAccuracy m .exact >>> k, e + k) := by
  subst h
  rfl

theorem shiftToTargetExponent_rounded {r : Nat} {e : Int} (hr : r ≤ 2 ^ 53) (he : -1074 ≤ e) :
    shiftToTargetExponent Format.binary64 r e .exact =
      if r = 2 ^ 53 then (⟨2 ^ 52, false, false⟩, e + 1) else (⟨r, false, false⟩, e) := by
  unfold shiftToTargetExponent
  rw [targetExponent_eq]
  split
  · next htop =>
    have ht : max (((2 ^ 53 : Nat).log2 : Int) + e - 52) (-1074) = e + 1 := by
      rw [Nat.log2_two_pow]
      omega
    rw [htop, ht, shiftToExponent_eq _ (by omega : (e + 1 - e).toNat = 1)]
    rfl
  · next hsmall =>
    have hlog : r.log2 ≤ 52 := by
      rcases Nat.eq_zero_or_pos r with rfl | hpos
      · decide
      · exact Nat.le_of_lt_succ ((Nat.log2_lt hpos.ne').mpr (by omega))
    have hstay : (max ((r.log2 : Int) + e - 52) (-1074) - e).toNat = 0 := by omega
    rw [shiftToExponent_eq _ hstay]
    exact congrArg (Prod.mk _) (Int.add_zero e)

theorem roundWithAccuracy_eq (s : Sign) {m r : Nat} {e t : Int} {acc : Accuracy}
    {em : ExtendedMantissa} (hshift : shiftToTargetExponent Format.binary64 m e acc = (em, t))
    (hr : em.roundedMantissa = r) (hpos : 0 < r) (hupper : r ≤ 2 ^ 53) (hmin : -1074 ≤ t) :
    roundWithAccuracy Format.binary64 s m e acc =
      if r = 2 ^ 53 then .finite s (2 ^ 52) (t + 1) (by decide) else .finite s r t hpos := by
  have hsecond := shiftToTargetExponent_rounded hupper hmin
  unfold roundWithAccuracy
  simp only [hshift, hr, hsecond]
  split
  · rfl
  · exact dif_neg hpos.ne'

theorem roundWithAccuracy_of_rounded (s : Sign) {m r : Nat} {e t : Int} {em : ExtendedMantissa}
    (hshift : shiftToTargetExponent Format.binary64 m e .exact = (em, t))
    (hr : em.roundedMantissa = r) (hupper : r ≤ 2 ^ 53) (hlower : t ≠ -1074 → 2 ^ 52 ≤ r)
    (hmin : -1074 ≤ t) (htop : t < 971) :
    Canonical (roundWithAccuracy Format.binary64 s m e .exact) ∧
      units (roundWithAccuracy Format.binary64 s m e .exact) =
        s.apply (r * 2 ^ (t + 1074).toNat : Nat) := by
  rcases Nat.eq_zero_or_pos r with hzero | hrpos
  · have hsecond := shiftToTargetExponent_rounded hupper hmin
    have hresult : roundWithAccuracy Format.binary64 s m e .exact = .zero s := by
      rw [hzero, if_neg (by decide)] at hsecond
      unfold roundWithAccuracy
      simp only [hshift, hr, hzero, hsecond]
      rfl
    rw [hresult]
    refine ⟨trivial, ?_⟩
    rw [hzero, Nat.zero_mul]
    cases s <;> rfl
  · rw [roundWithAccuracy_eq s hshift hr hrpos hupper hmin]
    split
    · next hcarry =>
      refine ⟨⟨by decide, by omega, by omega, .inl (Nat.le_refl _)⟩, ?_⟩
      have hexp : (t + 1 + 1074).toNat = (t + 1074).toNat + 1 := by omega
      rw [units_finite, hcarry, hexp, Nat.pow_succ]
      congr 2
      ring
    · next hstay =>
      refine ⟨⟨by omega, by omega, by omega, ?_⟩, units_finite _ _ _ _⟩
      by_cases hlow : t = -1074
      · exact .inr hlow
      · exact .inl (hlower hlow)

theorem exists_roundedMantissa {m : Nat} {e t : Int} (hm : m ≠ 0)
    (ht : t = max ((m.log2 : Int) + e - 52) (-1074)) (het : e ≤ t) :
    ∃ (em : ExtendedMantissa) (r : Nat),
      shiftToTargetExponent Format.binary64 m e .exact = (em, t) ∧ em.roundedMantissa = r ∧
      Nearest (t - e).toNat m (r * 2 ^ (t - e).toNat) ∧ r ≤ 2 ^ 53 ∧
      (t ≠ -1074 → 2 ^ 52 ≤ r) := by
  obtain ⟨k, hk⟩ : ∃ k : Nat, (t - e).toNat = k := ⟨_, rfl⟩
  have hnear := nearest_roundedMantissa m k
  have hpos : 0 < 2 ^ k := Nat.two_pow_pos k
  obtain ⟨r, hr⟩ : ∃ r,
    (ExtendedMantissa.ofMantissaAndAccuracy m .exact >>> k).roundedMantissa = r := ⟨_, rfl⟩
  rw [hr] at hnear
  have hupper : r ≤ 2 ^ 53 := by
    have hlt : m < 2 ^ 53 * 2 ^ k := by
      rw [← Nat.pow_add]
      exact (Nat.log2_lt hm).mp (by omega)
    exact Nat.le_of_mul_le_mul_right (hnear.le_of_le (Nat.dvd_mul_left _ _) hlt.le) hpos
  have hlower : t ≠ -1074 → 2 ^ 52 ≤ r := by
    intro hne
    have hle : 2 ^ 52 * 2 ^ k ≤ m := by
      rw [← Nat.pow_add]
      exact (Nat.le_log2 hm).mp (by omega)
    exact Nat.le_of_mul_le_mul_right (hnear.ge_of_ge (Nat.dvd_mul_left _ _) hle) hpos
  have hshift : shiftToTargetExponent Format.binary64 m e .exact =
      (ExtendedMantissa.ofMantissaAndAccuracy m .exact >>> k, t) := by
    unfold shiftToTargetExponent
    rw [targetExponent_eq, ← ht, shiftToExponent_eq m hk]
    congr 1
    omega
  rw [hk]
  exact ⟨_, r, hshift, hr, hnear, hupper, hlower⟩

theorem roundWithAccuracy_spec (s : Sign) {m : Nat} {e t : Int} (hm : m ≠ 0)
    (ht : t = max ((m.log2 : Int) + e - 52) (-1074)) (het : e ≤ t) (htop : t < 971) :
    Canonical (roundWithAccuracy Format.binary64 s m e .exact) ∧
      ∃ r, Nearest (t - e).toNat m (r * 2 ^ (t - e).toNat) ∧
        units (roundWithAccuracy Format.binary64 s m e .exact) =
          s.apply (r * 2 ^ (t + 1074).toNat : Nat) := by
  obtain ⟨em, r, hshift, hr, hnear, hupper, hlower⟩ := exists_roundedMantissa hm ht het
  obtain ⟨hcanonical, hunits⟩ :=
    roundWithAccuracy_of_rounded s hshift hr hupper hlower (by omega) htop
  exact ⟨hcanonical, r, hnear, hunits⟩

def spacing (n : Nat) : Nat := n.log2 - 52

theorem log2_mul_two_pow {m : Nat} (hm : m ≠ 0) (k : Nat) : (m * 2 ^ k).log2 = m.log2 + k := by
  have hlower : 2 ^ m.log2 ≤ m := Nat.log2_self_le hm
  have hupper : m < 2 ^ (m.log2 + 1) := Nat.lt_log2_self
  have hpos : 0 < 2 ^ k := Nat.two_pow_pos k
  refine (Nat.log2_eq_iff (Nat.mul_ne_zero hm hpos.ne')).mpr ⟨?_, ?_⟩
  · rw [Nat.pow_add]
    exact Nat.mul_le_mul_right _ hlower
  · rw [Nat.add_right_comm, Nat.pow_add]
    exact Nat.mul_lt_mul_of_pos_right hupper hpos

/-- Rounding gives a finite float whose units are nearest to those it is given, as long as these are
within the range of floats. -/
theorem round_spec (s : Sign) {m : Nat} {e : Int} (hm : m ≠ 0) (he : -1074 ≤ e)
    (hrange : (m * 2 ^ (e + 1074).toNat).log2 < 2097) :
    Canonical (UnpackedFloat.round Format.binary64 s m e) ∧
      ∃ y, Nearest (spacing (m * 2 ^ (e + 1074).toNat)) (m * 2 ^ (e + 1074).toNat) y ∧
        units (UnpackedFloat.round Format.binary64 s m e) = s.apply y := by
  rw [log2_mul_two_pow hm] at hrange
  obtain ⟨t, ht⟩ : ∃ t, t = max ((m.log2 : Int) + e - 52) (-1074) := ⟨_, rfl⟩
  -- a mantissa that is too short is first shifted to the left, by `k` bits
  obtain ⟨k, hk⟩ : ∃ k, k = (e - t).toNat := ⟨_, rfl⟩
  have hround : UnpackedFloat.round Format.binary64 s m e =
      roundWithAccuracy Format.binary64 s (m * 2 ^ k) (e - k) .exact := by
    unfold UnpackedFloat.round decreaseExponent
    simp only [targetExponent_eq, ← ht, ← hk, Nat.shiftLeft_eq]
  have hne : m * 2 ^ k ≠ 0 := Nat.mul_ne_zero hm (Nat.two_pow_pos k).ne'
  have htarget : t = max (((m * 2 ^ k).log2 : Int) + (e - k) - 52) (-1074) := by
    rw [log2_mul_two_pow hm]
    push_cast
    omega
  obtain ⟨hcanonical, r, hnear, hunits⟩ :=
    roundWithAccuracy_spec s hne htarget (by omega) (by omega)
  rw [hround]
  refine ⟨hcanonical, _, ?_, hunits⟩
  have hscaled := hnear.scale (e - k + 1074).toNat
  have hsplit : (t - (e - k)).toNat + (e - k + 1074).toNat = (t + 1074).toNat := by omega
  have hunit : k + (e - k + 1074).toNat = (e + 1074).toNat := by omega
  have hspacing : spacing (m * 2 ^ (e + 1074).toNat) = (t + 1074).toNat := by
    rw [spacing, log2_mul_two_pow hm]
    omega
  rw [Nat.mul_assoc, Nat.mul_assoc, ← Nat.pow_add, ← Nat.pow_add, hsplit, hunit] at hscaled
  rw [hspacing]
  exact hscaled

end MarchingDrill.Binary64
