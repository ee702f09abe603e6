import MarchingDrill.Proofs.Binary64.Arithmetic

/-! Scaling: magnitudes of floats, their products with counts, and the counts that are cut out of
them. A product may run out of the range of floats, where it becomes infinite and no smaller. -/

namespace MarchingDrill.Binary64

open Float.Model Float.Model.UnpackedFloat

/-- A float is at least a number of units, if only because it is infinite. -/
inductive AtLeast (n : Nat) (x : Float) : Prop
  | infinite (top : x.toModel.unpack = .infinity .positive)
  | finite (finite : x.isFinite = true) (le : (n : Int) ≤ value x)

theorem unpack_packedInfinity (s : Sign) :
    UnpackedFloat.unpack Format.binary64 (packedInfinity Format.binary64 s) = .infinity s := by
  cases s <;> rfl

theorem unpack_pack_of_large (s : Sign) {m : Nat} {e : Int} (hm : 0 < m) (he : 972 ≤ e) :
    (Float.Model.pack (.finite s m e hm)).unpack = .infinity s := by
  have hlarge : 2 ^ Format.binary64.exponentBits ≤ (e + Format.binary64.exponentBias +
      Format.binary64.mantissaBitsWithoutImplicit : Int).toNat + 1 := by
    change 2048 ≤ (e + 1023 + 52).toNat + 1
    omega
  change UnpackedFloat.unpack Format.binary64 (UnpackedFloat.pack Format.binary64 _) = _
  unfold UnpackedFloat.pack
  dsimp only
  rw [if_pos hlarge]
  exact unpack_packedInfinity s

section Magnitude

variable {x y : Float}

theorem value_abs (hx : x.isFinite = true) : x.abs.isFinite = true ∧ value x.abs = |value x| := by
  have hcanonical := unpack_canonical hx
  have habs : Canonical x.toModel.unpack.abs ∧
      units x.toModel.unpack.abs = |units x.toModel.unpack| := by
    cases h : x.toModel.unpack with
    | infinity | notANumber =>
      rw [h] at hcanonical
      cases hcanonical
    | zero => exact ⟨trivial, rfl⟩
    | finite s m e hm =>
      rw [h] at hcanonical
      refine ⟨hcanonical, ?_⟩
      cases s <;> simp [UnpackedFloat.abs, units_finite, Sign.apply]
  obtain ⟨hfinite, hvalue⟩ := ofModel_pack habs.1
  exact ⟨hfinite, hvalue.trans habs.2⟩

theorem unpack_abs_of_infinite {s : Sign} (h : x.toModel.unpack = .infinity s) :
    x.abs.toModel.unpack = .infinity .positive := by
  change (Float.Model.pack x.toModel.unpack.abs).unpack = _
  rw [h]
  exact unpack_packedInfinity .positive

theorem isFinite_of_not_isNaN (h : x.isNaN = false) :
    x.isFinite = true ∨ ∃ s, x.toModel.unpack = .infinity s := by
  change x.toModel.unpack.isNaN = false at h
  change x.toModel.unpack.isFinite = true ∨ _
  cases hx : x.toModel.unpack with
  | infinity s => exact .inr ⟨s, rfl⟩
  | notANumber =>
    rw [hx] at h
    cases h
  | zero | finite => exact .inl rfl

theorem atLeast_abs (h : x.isNaN = false) : AtLeast 0 x.abs := by
  rcases isFinite_of_not_isNaN h with hx | ⟨s, hx⟩
  · obtain ⟨hfinite, hvalue⟩ := value_abs hx
    exact .finite hfinite (hvalue ▸ abs_nonneg _)
  · exact .infinite (unpack_abs_of_infinite hx)

theorem AtLeast.abs {n : Nat} (h : AtLeast n x) : AtLeast n x.abs := by
  cases h with
  | infinite top => exact .infinite (unpack_abs_of_infinite top)
  | finite hx le =>
    obtain ⟨hfinite, hvalue⟩ := value_abs hx
    exact .finite hfinite (hvalue ▸ le.trans (le_abs_self _))

theorem isNaN_abs (x : Float) : x.abs.isNaN = x.isNaN := by
  cases h : x.isNaN with
  | false =>
    cases atLeast_abs h with
    | infinite top =>
      change x.abs.toModel.unpack.isNaN = false
      rw [top]
      rfl
    | finite hx => exact isNaN_eq_false hx
  | true =>
    change (Float.Model.pack x.toModel.unpack.abs).unpack.isNaN = true
    change x.toModel.unpack.isNaN = true at h
    cases hx : x.toModel.unpack with
    | notANumber => rfl
    | infinity | zero | finite =>
      rw [hx] at h
      cases h

theorem isNaN_unpack_packComponents (s : Sign) {e : BitVec 11} (m : BitVec 52)
    (he : e ≠ -1#11) : (UnpackedFloat.unpack Format.binary64
      (packComponents Format.binary64 s e m)).isNaN = false := by
  unfold UnpackedFloat.unpack
  simp only [unpackMantissa_packComponents, unpackExponent_packComponents]
  rw [if_neg he]
  split
  · split <;> rfl
  · rfl

theorem isNaN_unpack_pack {u : UnpackedFloat} (h : u.isNaN = false) :
    (Float.Model.pack u).unpack.isNaN = false := by
  change (UnpackedFloat.unpack Format.binary64 (UnpackedFloat.pack Format.binary64 u)).isNaN = false
  cases u with
  | notANumber => cases h
  | infinity s =>
    change (UnpackedFloat.unpack Format.binary64 (packedInfinity Format.binary64 s)).isNaN = false
    rw [unpack_packedInfinity]
    rfl
  | zero s => cases s <;> rfl
  | finite s m e hm =>
    unfold UnpackedFloat.pack
    dsimp only
    split
    · rw [unpack_packedInfinity]
      rfl
    · next hfits =>
      split
      · refine isNaN_unpack_packComponents s _ fun hinf => hfits ?_
        have hexp := congrArg BitVec.toNat hinf
        rw [BitVec.toNat_ofNat] at hexp
        change _ % 2048 = 2047 at hexp
        change 2048 ≤ _
        omega
      · exact isNaN_unpack_packComponents s _ (by decide)

theorem isNaN_normalize (m e : Int) (s : Sign) :
    (UnpackedFloat.normalize Format.binary64 m e s).isNaN = false := by
  have hround : ∀ (s : Sign) (m : Nat) (e : Int),
      (UnpackedFloat.round Format.binary64 s m e).isNaN = false := by
    intro s m e
    unfold UnpackedFloat.round roundWithAccuracy
    dsimp only
    split <;> rfl
  unfold UnpackedFloat.normalize
  split
  · exact hround _ _ _
  · rfl
  · exact hround _ _ _

theorem isNaN_sub (hx : x.isFinite = true) (hy : y.isFinite = true) : (x - y).isNaN = false := by
  have hx := unpack_canonical hx
  have hy := unpack_canonical hy
  refine isNaN_unpack_pack (u := x.toModel.unpack.sub Format.binary64 y.toModel.unpack) ?_
  cases hu : x.toModel.unpack with
  | infinity | notANumber =>
    rw [hu] at hx
    cases hx
  | zero s =>
    cases hv : y.toModel.unpack with
    | infinity | notANumber =>
      rw [hv] at hy
      cases hy
    | zero s' => cases s <;> cases s' <;> rfl
    | finite => rfl
  | finite s m d hm =>
    cases hv : y.toModel.unpack with
    | infinity | notANumber =>
      rw [hv] at hy
      cases hy
    | zero => rfl
    | finite s' n e hn => exact isNaN_normalize _ _ _

theorem isFinite_of_unpack_pack {u : UnpackedFloat}
    (h : (Float.Model.pack u).unpack.isFinite = true) : u.isFinite = true := by
  cases u with
  | infinity s =>
    change (UnpackedFloat.unpack Format.binary64
      (packedInfinity Format.binary64 s)).isFinite = true at h
    rw [unpack_packedInfinity] at h
    cases h
  | notANumber => cases h
  | zero | finite => rfl

theorem isFinite_of_isFinite_sub {u v : UnpackedFloat}
    (h : (u.sub Format.binary64 v).isFinite = true) : u.isFinite = true ∧ v.isFinite = true := by
  cases u with
  | notANumber => cases h
  | infinity s =>
    cases v with
    | infinity s' => cases s <;> cases s' <;> cases h
    | notANumber | zero | finite => cases h
  | zero | finite =>
    cases v with
    | infinity | notANumber => cases h
    | zero | finite => exact ⟨rfl, rfl⟩

theorem isFinite_of_sub (h : (x - y).isFinite = true) : x.isFinite = true ∧ y.isFinite = true :=
  isFinite_of_isFinite_sub (isFinite_of_unpack_pack h)

theorem isFinite_of_abs_lt (h : x.abs < y) : x.isFinite = true := by
  rw [lt_iff_unpack] at h
  change x.toModel.unpack.isFinite = true
  cases hx : x.toModel.unpack with
  | zero | finite => rfl
  | infinity s =>
    rw [unpack_abs_of_infinite hx] at h
    cases hy : y.toModel.unpack with
    | infinity s' =>
      rw [hy] at h
      cases s' <;> cases h
    | notANumber | zero | finite =>
      rw [hy] at h
      cases h
  | notANumber =>
    have habs : x.abs.toModel.unpack = .notANumber := by
      change (Float.Model.pack x.toModel.unpack.abs).unpack = _
      rw [hx]
      rfl
    rw [habs] at h
    cases h

end Magnitude

section Words

theorem mantissa_shiftRight (m k : Nat) :
    (ExtendedMantissa.ofMantissaAndAccuracy m .exact >>> k).mantissa = m / 2 ^ k := by
  obtain ⟨hle, hlt, -, -⟩ := (tracks_exact m).shiftRight k
  have hpos : (0 : ℚ) < 2 ^ k := by positivity
  rw [le_div_iff₀ hpos] at hle
  rw [div_lt_iff₀ hpos] at hlt
  refine (Nat.div_eq_of_lt_le ?_ ?_).symm
  · exact_mod_cast hle
  · exact_mod_cast hlt

theorem roundToInt_eq (s : Sign) (m : Nat) {e : Int} (he : -1074 ≤ e) :
    roundToInt s m e = s.apply (m * 2 ^ (e + 1074).toNat / one : Nat) := by
  have hmantissa : roundToInt s m e =
      s.apply ((m <<< e.toNat) / 2 ^ (-e).toNat : Nat) := by
    have hshift : (0 - (e - e.toNat) : Int).toNat = (-e).toNat := by omega
    unfold roundToInt decreaseExponent shiftToExponent
    simp only [Int.sub_zero, hshift, mantissa_shiftRight]
  obtain ⟨i, hi, hi1074⟩ : ∃ i : Nat, one = 2 ^ i ∧ (i : Int) = 1074 := ⟨1074, one_eq, rfl⟩
  have hsplit : (e + 1074).toNat + (-e).toNat = e.toNat + i := by omega
  rw [hmantissa, hi, Nat.shiftLeft_eq]
  congr 2
  calc
    m * 2 ^ e.toNat / 2 ^ (-e).toNat =
        m * 2 ^ e.toNat * 2 ^ i / (2 ^ (-e).toNat * 2 ^ i) :=
      (Nat.mul_div_mul_right _ _ (Nat.two_pow_pos i)).symm
    _ = m * 2 ^ (e + 1074).toNat * 2 ^ (-e).toNat / (2 ^ i * 2 ^ (-e).toNat) := by
      rw [Nat.mul_assoc, ← Nat.pow_add, ← hsplit, Nat.pow_add, Nat.mul_assoc,
        Nat.mul_comm (2 ^ (-e).toNat)]
    _ = m * 2 ^ (e + 1074).toNat / 2 ^ i := Nat.mul_div_mul_right _ _ (Nat.two_pow_pos _)

variable {x : Float}

theorem toInt_unpack (hx : x.isFinite = true) (hpos : 0 ≤ value x) (low high : Int) :
    (x.toModel.unpack.toInt low high).toNat = (value x).toNat / one := by
  have hcanonical := unpack_canonical hx
  unfold value at hpos ⊢
  cases h : x.toModel.unpack with
  | infinity | notANumber =>
    rw [h] at hcanonical
    cases hcanonical
  | zero => exact (Nat.zero_div one).symm
  | finite s m e hm =>
    rw [h] at hpos hcanonical
    have hmul : 0 < m * 2 ^ (e + 1074).toNat := Nat.mul_pos hm (Nat.two_pow_pos _)
    rw [units_finite] at hpos ⊢
    rw [toInt, roundToInt_eq s m hcanonical.2.1]
    cases s with
    | negative =>
      simp only [Sign.apply] at hpos
      omega
    | positive => rfl

theorem toNat_ofNatClamp (n : Nat) : (UInt32.ofNatClamp n).toNat = min n (2 ^ 32 - 1) := by
  unfold UInt32.ofNatClamp
  split
  · next h =>
    rw [UInt32.toNat_ofNatLT]
    change n < 2 ^ 32 at h
    omega
  · next h =>
    rw [UInt32.toNat_ofNatLT]
    change ¬n < 2 ^ 32 at h
    change 2 ^ 32 - 1 = _
    omega

theorem toNat_toUInt32 (hx : x.isFinite = true) (hpos : 0 ≤ value x) :
    x.toUInt32.toNat = min ((value x).toNat / one) (2 ^ 32 - 1) := by
  change (UInt32.ofNatClamp (x.toModel.unpack.toInt _ _).toNat).toNat = _
  rw [toInt_unpack hx hpos, toNat_ofNatClamp]

theorem toNat_toUInt32_of_infinite (h : x.toModel.unpack = .infinity .positive) :
    x.toUInt32.toNat = 2 ^ 32 - 1 := by
  change (UInt32.ofNatClamp (x.toModel.unpack.toInt _ _).toNat).toNat = _
  rw [h]
  rfl

theorem toNat_toUInt64 (hx : x.isFinite = true) (hpos : 0 ≤ value x)
    (hlt : value x < (2 ^ 53 * one : Nat)) : x.toUInt64.toNat = (value x).toNat / one := by
  have hsmall : (value x).toNat / one < 2 ^ 53 := Nat.div_lt_of_lt_mul (by rw [Nat.mul_comm]; omega)
  change (UInt64.ofNatClamp (x.toModel.unpack.toInt _ _).toNat).toNat = _
  rw [toInt_unpack hx hpos]
  unfold UInt64.ofNatClamp
  rw [dif_pos (hsmall.trans (by decide)), UInt64.toNat_ofNatLT]

end Words

section Product

variable {x : Float} {b : UInt32}

theorem roundWithAccuracy_eq_round (s : Sign) {m : Nat} (e : Int) (hm : 2 ^ 52 ≤ m) :
    roundWithAccuracy Format.binary64 s m e .exact = UnpackedFloat.round Format.binary64 s m e := by
  have hlog : 52 ≤ m.log2 := (Nat.le_log2 (by omega)).mpr hm
  have hstay : (e - max ((m.log2 : Int) + e - 52) (-1074)).toNat = 0 := by omega
  unfold UnpackedFloat.round decreaseExponent
  simp only [targetExponent_eq, hstay, Nat.shiftLeft_zero]
  exact congrArg (roundWithAccuracy Format.binary64 s m · .exact) (Int.sub_zero e).symm

theorem unpack_of_pos (hx : x.isFinite = true) (hpos : 0 < value x) :
    ∃ (m : Nat) (e : Int) (hm : 0 < m), x.toModel.unpack = .finite .positive m e hm ∧
      Canonical (.finite .positive m e hm) ∧ value x = (m * 2 ^ (e + 1074).toNat : Nat) := by
  have hcanonical := unpack_canonical hx
  unfold value at hpos ⊢
  cases h : x.toModel.unpack with
  | infinity | notANumber =>
    rw [h] at hcanonical
    cases hcanonical
  | zero =>
    rw [h] at hpos
    exact absurd hpos (Int.lt_irrefl 0)
  | finite s m e hm =>
    rw [h] at hpos hcanonical
    cases s with
    | negative =>
      rw [units_finite] at hpos
      simp only [Sign.apply] at hpos
      omega
    | positive => exact ⟨m, e, hm, rfl, hcanonical, rfl⟩

theorem unpack_toFloat_of_pos (hb : 1 ≤ b) :
    ∃ (m : Nat) (e : Int) (hm : 0 < m), b.toFloat.toModel.unpack = .finite .positive m e hm ∧
      Canonical (.finite .positive m e hm) ∧ m * 2 ^ (e + 1074).toNat = b.toNat * one := by
  obtain ⟨hfinite, hvalue⟩ := value_toFloat b
  obtain ⟨i, hi⟩ : ∃ i : Nat, one = 2 ^ i := ⟨1074, one_eq⟩
  have hpos : 0 < b.toNat * one :=
    Nat.mul_pos (UInt32.le_iff_toNat_le.mp hb) (hi ▸ Nat.two_pow_pos i)
  obtain ⟨m, e, hm, h, hcanonical, hunits⟩ := unpack_of_pos hfinite (by omega)
  exact ⟨m, e, hm, h, hcanonical, Int.ofNat.inj (hunits.symm.trans hvalue)⟩

theorem unpack_mul_toFloat (hx : x.isFinite = true) (hlow : (2 ^ 106 : Nat) ≤ value x)
    (hb : 1 ≤ b) : ∃ (m : Nat) (e : Int), 2 ^ 52 ≤ m ∧ -1074 ≤ e ∧
      (m * 2 ^ (e + 1074).toNat : Nat) = value x * b.toNat ∧
      x * b.toFloat =
        .ofModel (.pack (UnpackedFloat.round Format.binary64 .positive m e)) := by
  have hbpos : 1 ≤ b.toNat := UInt32.le_iff_toNat_le.mp hb
  obtain ⟨i, hi, hi1074⟩ : ∃ i : Nat, one = 2 ^ i ∧ (i : Int) = 1074 := ⟨1074, one_eq, rfl⟩
  obtain ⟨m₁, e₁, hm₁, h₁, ⟨hlt₁, he₁, -, -⟩, hv₁⟩ := unpack_of_pos hx (by omega)
  obtain ⟨m₂, e₂, hm₂, h₂, ⟨hlt₂, he₂, -, hlead₂⟩, hunits⟩ := unpack_toFloat_of_pos hb
  rw [hi] at hunits
  have hbits : ∀ {m k n : Nat}, m < 2 ^ 53 → 2 ^ n ≤ m * 2 ^ k → n < 53 + k := by
    intro m k n hm hn
    refine (Nat.pow_lt_pow_iff_right Nat.one_lt_two).mp (hn.trans_lt ?_)
    rw [Nat.pow_add]
    exact Nat.mul_lt_mul_of_pos_right hm (Nat.two_pow_pos k)
  have hexp₁ : 106 < 53 + (e₁ + 1074).toNat := hbits hlt₁ (by omega)
  have hexp₂ : i < 53 + (e₂ + 1074).toNat :=
    hbits hlt₂ (hunits ▸ Nat.le_mul_of_pos_left _ hbpos)
  have hm₂53 : 2 ^ 52 ≤ m₂ := hlead₂.resolve_right (by omega)
  have hm : 2 ^ 52 ≤ m₁ * m₂ := hm₂53.trans (Nat.le_mul_of_pos_left _ hm₁)
  refine ⟨m₁ * m₂, e₁ + e₂, hm, by omega, ?_, ?_⟩
  · have hsum : (e₁ + e₂ + 1074).toNat + i = (e₁ + 1074).toNat + (e₂ + 1074).toNat := by omega
    have hnat : m₁ * m₂ * 2 ^ (e₁ + e₂ + 1074).toNat =
        m₁ * 2 ^ (e₁ + 1074).toNat * b.toNat := by
      refine Nat.eq_of_mul_eq_mul_right (Nat.two_pow_pos i) ?_
      rw [Nat.mul_assoc, ← Nat.pow_add, hsum, Nat.pow_add, Nat.mul_mul_mul_comm, hunits,
        ← Nat.mul_assoc]
    rw [hv₁, hnat, Nat.cast_mul]
  · have hproduct : UnpackedFloat.mul Format.binary64 x.toModel.unpack b.toFloat.toModel.unpack =
        UnpackedFloat.round Format.binary64 .positive (m₁ * m₂) (e₁ + e₂) := by
      rw [h₁, h₂, ← roundWithAccuracy_eq_round _ _ hm]
      rfl
    exact congrArg (fun u => Float.ofModel (.pack u)) hproduct

theorem value_mul_toFloat (hx : x.isFinite = true) (hlow : (2 ^ 106 : Nat) ≤ value x) (hb : 1 ≤ b)
    (hrange : (value x * b.toNat).natAbs.log2 < 2097) :
    (x * b.toFloat).isFinite = true ∧ Rounds (value x * b.toNat) (value (x * b.toFloat)) := by
  obtain ⟨m, e, hm, he, hunits, hproduct⟩ := unpack_mul_toFloat hx hlow hb
  rw [← hunits, Int.natAbs_natCast] at hrange
  obtain ⟨hcanonical, y, hnear, hround⟩ := round_spec .positive (by omega) he hrange
  obtain ⟨hfinite, hvalue⟩ := ofModel_pack hcanonical
  rw [hproduct, ← hunits]
  have hpos : 0 < m * 2 ^ (e + 1074).toNat := Nat.mul_pos (by omega) (Nat.two_pow_pos _)
  refine ⟨hfinite, y, hnear, hvalue.trans (hround.trans ?_)⟩
  rw [Int.sign_eq_one_of_pos (by omega), Int.one_mul]
  rfl

theorem value_zero_mul (hb : 1 ≤ b) : ((0 : UInt32).toFloat * b.toFloat).isFinite = true ∧
    value ((0 : UInt32).toFloat * b.toFloat) = 0 := by
  obtain ⟨m, e, hm, hb, -, -⟩ := unpack_toFloat_of_pos hb
  have hproduct : UnpackedFloat.mul Format.binary64 (0 : UInt32).toFloat.toModel.unpack
      b.toFloat.toModel.unpack = .zero .positive := by
    rw [hb]
    rfl
  obtain ⟨hfinite, hvalue⟩ := ofModel_pack (u := .zero .positive) trivial
  rw [← hproduct] at hfinite hvalue
  exact ⟨hfinite, hvalue.trans (congrArg units hproduct)⟩

theorem Rounds.whole_of_large {n : Nat} {z : Int} (h : Rounds (n * one : Nat) z)
    (hlarge : 2 ^ 53 < n) : ∃ k : Nat, z = (k * one : Nat) ∧ 2 ^ 53 ≤ k := by
  obtain ⟨i, hi, hi1074⟩ : ∃ i : Nat, one = 2 ^ i ∧ i = 1074 := ⟨1074, one_eq, rfl⟩
  have honepos : 0 < one := hi ▸ Nat.two_pow_pos i
  have htop : Fits (2 ^ 53 * one) := ⟨2 ^ 53, 1074, Nat.le_refl _, by rw [one_eq]⟩
  have hge : ((2 ^ 53 * one : Nat) : Int) ≤ z :=
    h.ge_of_ge htop (Int.ofNat_le.mpr (Nat.mul_le_mul_right one hlarge.le))
  obtain ⟨y, hnear, hy⟩ := h
  -- so many bits leave no room for any behind the point
  have hspacing : i ≤ spacing (n * one) := by
    have hlog : 53 ≤ n.log2 := (Nat.le_log2 (by omega)).mpr hlarge.le
    rw [hi, spacing, log2_mul_two_pow (by omega)]
    omega
  obtain ⟨k, rfl⟩ : one ∣ y := hi ▸ (Nat.pow_dvd_pow 2 hspacing).trans hnear.dvd
  have hpositive : 0 < n * one := Nat.mul_pos (by omega) honepos
  rw [Int.sign_eq_one_of_pos (by omega), Int.one_mul, Nat.mul_comm] at hy
  rw [hy] at hge
  exact ⟨k, hy, Nat.le_of_mul_le_mul_right (Int.ofNat_le.mp hge) honepos⟩

theorem value_mul_counts (n : UInt32) (hb : 1 ≤ b) :
    (n.toFloat * b.toFloat).isFinite = true ∧ ∃ k : Nat,
      value (n.toFloat * b.toFloat) = (k * one : Nat) ∧
      (n.toNat * b.toNat ≤ 2 ^ 53 → k = n.toNat * b.toNat) ∧
      (2 ^ 53 < n.toNat * b.toNat → 2 ^ 53 ≤ k) := by
  rcases Nat.eq_zero_or_pos n.toNat with hzero | hpos
  · obtain rfl : n = 0 := UInt32.toNat_inj.mp hzero
    obtain ⟨hfinite, hvalue⟩ := value_zero_mul hb
    exact ⟨hfinite, 0, hvalue.trans (by rw [Nat.zero_mul]; rfl), by simp, by simp⟩
  · obtain ⟨hfinite, hvalue⟩ := value_toFloat n
    obtain ⟨i, hi, hi1074⟩ : ∃ i : Nat, one = 2 ^ i ∧ i = 1074 := ⟨1074, one_eq, rfl⟩
    have hone : 2 ^ 106 ≤ one := hi ▸ Nat.pow_le_pow_right Nat.two_pos (by omega)
    have hlow : one ≤ n.toNat * one := Nat.le_mul_of_pos_left _ hpos
    have hproduct : value n.toFloat * b.toNat = (n.toNat * b.toNat * one : Nat) := by
      rw [hvalue, ← Nat.cast_mul, Nat.mul_right_comm]
    have hbound : n.toNat * b.toNat ≤ 2 ^ 64 :=
      (Nat.mul_le_mul n.toNat_lt.le b.toNat_lt.le).trans_eq (Nat.pow_add 2 32 32).symm
    have hspec := value_mul_toFloat hfinite (by omega) hb
    rw [hproduct, Int.natAbs_natCast] at hspec
    obtain ⟨hfinite', hrounds⟩ := hspec (by
      have hle := Nat.mul_le_mul_right one hbound
      rw [one_eq] at hle ⊢
      exact Nat.lt_of_le_of_lt (log2_le_of_le hle) (by decide))
    refine ⟨hfinite', ?_⟩
    rcases Nat.lt_or_ge (2 ^ 53) (n.toNat * b.toNat) with hlarge | hsmall
    · obtain ⟨k, hk, hle⟩ := hrounds.whole_of_large hlarge
      exact ⟨k, hk, by omega, fun _ => hle⟩
    · refine ⟨_, hrounds.eq_of_fits ⟨_, 1074, hsmall, ?_⟩, fun _ => rfl, by omega⟩
      rw [Int.natAbs_natCast, one_eq]

theorem atLeast_one_of_large {m : Nat} {e : Int} (hm : 2 ^ 52 ≤ m) (he : -1074 ≤ e)
    (hlarge : 2097 ≤ (m * 2 ^ (e + 1074).toNat).log2) :
    AtLeast one (.ofModel (.pack (UnpackedFloat.round Format.binary64 .positive m e))) := by
  obtain ⟨t, ht⟩ : ∃ t, t = max ((m.log2 : Int) + e - 52) (-1074) := ⟨_, rfl⟩
  have hlog : 52 ≤ m.log2 := (Nat.le_log2 (by omega)).mpr hm
  rw [log2_mul_two_pow (by omega)] at hlarge
  obtain ⟨em, r, hshift, hr, -, hupper, hlower⟩ :=
    exists_roundedMantissa (e := e) (by omega) ht (by omega)
  have hr52 : 2 ^ 52 ≤ r := hlower (by omega)
  rw [← roundWithAccuracy_eq_round _ _ hm,
    roundWithAccuracy_eq .positive hshift hr (by omega) hupper (by omega)]
  split
  · exact .infinite (unpack_pack_of_large .positive _ (by omega))
  · rcases Int.lt_or_le 971 t with htop | htop
    · exact .infinite (unpack_pack_of_large .positive _ htop)
    · have hcanonical : Canonical (.finite .positive r t (by omega)) :=
        ⟨by omega, by omega, htop, .inl hr52⟩
      obtain ⟨hfinite, hvalue⟩ := ofModel_pack hcanonical
      obtain ⟨i, hi, hle⟩ : ∃ i : Nat, one = 2 ^ i ∧ i ≤ (t + 1074).toNat :=
        ⟨1074, one_eq, by omega⟩
      have hunits : one ≤ r * 2 ^ (t + 1074).toNat := by
        rw [hi]
        exact (Nat.pow_le_pow_right Nat.two_pos hle).trans (Nat.le_mul_of_pos_left _ (by omega))
      exact .finite hfinite (hvalue ▸ Int.ofNat_le.mpr hunits)

theorem AtLeast.mul_toFloat {n : Nat} (h : AtLeast n x) (hb : 1 ≤ b) (hlow : 2 ^ 106 ≤ n)
    (hle : n ≤ one) (hfits : Fits n) : AtLeast n (x * b.toFloat) := by
  have hbpos : 1 ≤ b.toNat := UInt32.le_iff_toNat_le.mp hb
  cases h with
  | infinite top =>
    obtain ⟨m, e, hm, h, -, -⟩ := unpack_toFloat_of_pos hb
    refine .infinite ?_
    change (Float.Model.pack (UnpackedFloat.mul Format.binary64 x.toModel.unpack
      b.toFloat.toModel.unpack)).unpack = _
    rw [top, h]
    exact unpack_packedInfinity .positive
  | finite hx le =>
    by_cases hrange : (value x * b.toNat).natAbs.log2 < 2097
    · obtain ⟨hfinite, hrounds⟩ := value_mul_toFloat hx (by omega) hb hrange
      refine .finite hfinite (hrounds.ge_of_ge hfits ?_)
      have : value x * 1 ≤ value x * b.toNat := Int.mul_le_mul_of_nonneg_left (by omega) (by omega)
      omega
    · obtain ⟨m, e, hm, he, hunits, hproduct⟩ := unpack_mul_toFloat hx (by omega) hb
      rw [← hunits, Int.natAbs_natCast] at hrange
      rw [hproduct]
      cases atLeast_one_of_large hm he (Nat.le_of_not_lt hrange) with
      | infinite top => exact .infinite top
      | finite hfinite hone => exact .finite hfinite (by omega)

end Product

end MarchingDrill.Binary64
