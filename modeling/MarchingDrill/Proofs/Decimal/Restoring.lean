import MarchingDrill.Decimal.Layout
import MarchingDrill.Proofs.Binary64.Scientific
import MarchingDrill.Proofs.Decimal.Search

/-! Restoring: whatever the layout, the numeral that is written for a finite float is read as this
float. -/

namespace MarchingDrill.Decimal

open Float.Model Binary64 Shortest

theorem length_lastDigits (n k : Nat) : (lastDigits n k).length = k := by
  induction k with
  | zero => rfl
  | succ k ih => exact congrArg (· + 1) ih

theorem foldl_lastDigits (n k v : Nat) :
    (lastDigits n k).foldl (fun v (d : Fin 10) => 10 * v + d.val) v = v * 10 ^ k + n % 10 ^ k := by
  induction k generalizing v with
  | zero => simp [lastDigits, Nat.mod_one]
  | succ k ih =>
    rw [lastDigits, List.foldl_cons, ih, Nat.mod_pow_succ, Nat.pow_succ]
    simp only [Nat.pow_eq]
    ring

def Numeral.size (n : Numeral) : ℚ := n.coefficient * 10 ^ n.power

def Scaled.value (d : Scaled) : ℚ := d.digits * 10 ^ d.power

namespace Layout

variable (layout : Layout) (negative : Bool) (d : Scaled)

theorem size_written : (layout.written negative d).size = d.value := by
  unfold written Numeral.size Numeral.coefficient Numeral.power Scaled.value
  simp only [Nat.pow_eq]
  rcases Int.lt_or_le d.power 0 with hp | hp
  · obtain ⟨k, hk⟩ : ∃ k : Nat, d.power = -(k + 1 : Nat) := ⟨(-d.power).toNat - 1, by omega⟩
    have hempty : (lastDigits d.digits (k + 1)).isEmpty = false := rfl
    rw [hk, Int.neg_neg, Int.toNat_natCast, Int.toNat_neg_natCast, Nat.pow_zero, Nat.mul_one,
      hempty, Bool.false_and, if_neg Bool.false_ne_true, foldl_lastDigits, length_lastDigits,
      Nat.div_add_mod', Option.getD_none, zero_sub]
  · obtain ⟨k, hk⟩ := Int.eq_ofNat_of_zero_le hp
    rw [hk, Int.toNat_neg_natCast, Int.toNat_natCast, Nat.pow_zero, Nat.div_one]
    -- the fraction that keeps the point is worth nothing
    cases layout.keepsPoint with
    | false => simp [lastDigits]
    | true =>
      simp [lastDigits]
      ring

theorem size_scientific (k : Nat) : (scientific negative d k).size = d.value := by
  unfold scientific Numeral.size Numeral.coefficient Numeral.power Scaled.value
  simp only [Nat.pow_eq]
  rw [foldl_lastDigits, length_lastDigits, Nat.div_add_mod', Option.getD_some,
    add_sub_cancel_right]

theorem size_numeral : (layout.numeral negative d).size = d.value := by
  unfold numeral
  dsimp only
  split
  · exact layout.size_written negative d
  · exact size_scientific negative d _

theorem negative_numeral : (layout.numeral negative d).negative = negative := by
  unfold numeral
  dsimp only
  split <;> rfl

end Layout

theorem lt_pow_length (c : Nat) : c < 10 ^ (Nat.toDigits 10 c).length :=
  (Nat.length_toDigits_le_iff (by decide) Nat.length_toDigits_pos).mp le_rfl

theorem pow_length_le {c : Nat} (hc : 0 < c) : 10 ^ ((Nat.toDigits 10 c).length - 1) ≤ c := by
  by_cases h : (Nat.toDigits 10 c).length = 1
  · rw [h]
    exact hc
  · have hpos := @Nat.length_toDigits_pos 10 c
    refine Nat.le_of_not_lt fun hlt => ?_
    have := (Nat.length_toDigits_le_iff (by decide) (by omega)).mpr hlt
    omega

theorem isFinite_of_unpack_finite {x : Float} {s : UnpackedFloat.Sign} {m : Nat} {q : Int}
    {hm : 0 < m} (h : x.toModel.unpack = .finite s m q hm) : x.isFinite = true := by
  change x.toModel.unpack.isFinite = true
  rw [h]
  rfl

namespace Numeral

variable {n : Numeral} {m : Nat} {q : Int} {hm : 0 < m}

theorem coefficient_pos (h : 0 < n.size) : 0 < n.coefficient := by
  refine Nat.pos_of_ne_zero fun hzero => ?_
  rw [size, hzero, Nat.cast_zero, zero_mul] at h
  exact lt_irrefl _ h

theorem size_bounds (hpos : 0 < n.coefficient) {l : Nat}
    (hl : (Nat.toDigits 10 n.coefficient).length = l + 1) :
    10 ^ (l + n.power) ≤ n.size ∧ n.size < 10 ^ (l + 1 + n.power) := by
  have hten : (0 : ℚ) < 10 ^ n.power := by positivity
  have hlower := pow_length_le hpos
  have hupper := lt_pow_length n.coefficient
  rw [hl] at hlower hupper
  rw [size, zpow_add₀ (by norm_num), zpow_add₀ (by norm_num)]
  exact ⟨mul_le_mul_of_nonneg_right (by exact_mod_cast hlower) hten.le,
    mul_lt_mul_of_pos_right (by exact_mod_cast hupper) hten⟩

theorem magnitude?_of_captures (hc : Canonical (.finite .positive m q hm))
    (h : Captures m q n.size) :
    ∃ x, n.magnitude? = some x ∧ x.toModel.unpack = .finite .positive m q hm := by
  -- in the interval of a float a numeral is far from both ends of the range
  have hbottom := h.two_zpow_le hm
  have htop := h.lt_two_zpow hc.1
  obtain ⟨-, hq, hq', -⟩ := id hc
  have hpos := coefficient_pos ((by positivity : (0 : ℚ) < 2 ^ (q - 1)).trans_le hbottom)
  obtain ⟨l, hl⟩ : ∃ l : Nat, (Nat.toDigits 10 n.coefficient).length = l + 1 :=
    ⟨_, (Nat.succ_pred_eq_of_pos Nat.length_toDigits_pos).symm⟩
  obtain ⟨hlower, hupper⟩ := size_bounds hpos hl
  have hmin : -330 ≤ l + 1 + n.power := by
    by_contra hsmall
    have := ten_zpow_le_two_zpow (j := l + 1 + n.power) (k := q - 1) (by omega) (by omega)
    linarith
  have hmax : l + 1 + n.power ≤ 310 := by
    by_contra hlarge
    have := two_zpow_le_ten_zpow (j := l + n.power) (k := q + 53) (by omega) (by omega)
    linarith
  have hlog : l ≤ n.coefficient.log2 := by
    have hlower := pow_length_le hpos
    rw [hl] at hlower
    exact (Nat.le_log2 hpos.ne').mpr ((Nat.pow_le_pow_left (by decide) l).trans hlower)
  have hunpack := unpack_ofScientific hc hpos (by omega) (by omega) h
  refine ⟨_, ?_, hunpack⟩
  have hfinite := isFinite_of_unpack_finite hunpack
  unfold magnitude?
  simp only [hl]
  rw [if_neg (by push_cast; omega), if_neg (by push_cast; omega), if_pos hfinite]

end Numeral

theorem Layout.magnitude?_numeral (layout : Layout) (negative : Bool) {m : Nat} {q : Int}
    {hm : 0 < m} (hc : Canonical (.finite .positive m q hm)) :
    ∃ x, (layout.numeral negative (shortest layout.tie m q)).magnitude? = some x ∧
      x.toModel.unpack = .finite .positive m q hm := by
  refine Numeral.magnitude?_of_captures hc ?_
  rw [layout.size_numeral]
  exact (shortest_sound layout.tie hc).2

theorem Layout.magnitude?_zero (layout : Layout) (negative : Bool) :
    (layout.written negative ⟨0, 0⟩).magnitude? = some 0 := by
  have hzero : (layout.written negative ⟨0, 0⟩).coefficient = 0 := by
    unfold written Numeral.coefficient
    cases layout.keepsPoint <;> rfl
  unfold Numeral.magnitude?
  simp [hzero]

theorem unpack_neg {x : Float} (hx : x.isFinite = true) :
    (-x).toModel.unpack = x.toModel.unpack.neg :=
  unpack_pack (unpack_canonical hx).neg

theorem float?_of_magnitude? {n : Numeral} {x y : Float} (hx : x.isFinite = true)
    (hy : n.magnitude? = some y) (hyfinite : y.isFinite = true)
    (hunpack : x.toModel.unpack =
      if n.negative then y.toModel.unpack.neg else y.toModel.unpack) : n.float? = some x := by
  rw [Numeral.float?, hy, Option.map_some]
  congr 1
  refine eq_of_unpack_eq hx ?_
  rw [hunpack]
  split
  · exact unpack_neg hyfinite
  · rfl

theorem float?_ofFloat? (layout : Layout) {x : Float} (hx : x.isFinite = true) :
    ∃ n, layout.ofFloat? x = some n ∧ n.float? = some x := by
  have hcanonical := unpack_canonical hx
  unfold Layout.ofFloat?
  cases h : x.toModel.unpack with
  | infinity | notANumber =>
    rw [h] at hcanonical
    cases hcanonical
  | zero s =>
    refine ⟨_, rfl, float?_of_magnitude? hx (layout.magnitude?_zero _) rfl ?_⟩
    rw [h]
    cases s <;> rfl
  | finite s m q hm =>
    rw [h] at hcanonical
    have hnumeral := fun negative => layout.magnitude?_numeral negative
      (show Canonical (.finite .positive m q hm) from hcanonical)
    obtain ⟨y, hy, hunpack⟩ := hnumeral _
    refine ⟨_, rfl, float?_of_magnitude? hx hy (isFinite_of_unpack_finite hunpack) ?_⟩
    rw [h, hunpack, Layout.negative_numeral]
    cases s <;> rfl

theorem isFinite_of_ofFloat? {layout : Layout} {x : Float} {n : Numeral}
    (h : layout.ofFloat? x = some n) : x.isFinite = true := by
  change x.toModel.unpack.isFinite = true
  unfold Layout.ofFloat? at h
  split at h
  · next hunpack =>
    rw [hunpack]
    rfl
  · next hunpack =>
    rw [hunpack]
    rfl
  · cases h
  · cases h

namespace Numeral

theorem isFinite_of_magnitude? {n : Numeral} {x : Float} (h : n.magnitude? = some x) :
    x.isFinite = true := by
  unfold magnitude? at h
  dsimp only at h
  split at h
  · cases h
    rfl
  · split at h
    · cases h
    · split at h
      · next hfinite =>
        cases h
        exact hfinite
      · cases h

theorem isFinite_of_float? {n : Numeral} {x : Float} (h : n.float? = some x) :
    x.isFinite = true := by
  obtain ⟨y, hy, rfl⟩ := Option.map_eq_some_iff.mp h
  have hfinite := isFinite_of_magnitude? hy
  split
  · change (-y).toModel.unpack.isFinite = true
    rw [unpack_neg hfinite]
    exact (unpack_canonical hfinite).neg.isFinite
  · exact hfinite

theorem isSome_float?_ofNat {c : Nat} (hc : c < 2 ^ 64) : (ofNat c).float?.isSome = true := by
  suffices h : ∃ x, (ofNat c).magnitude? = some x by
    obtain ⟨x, hx⟩ := h
    rw [float?, hx]
    rfl
  rcases Nat.eq_zero_or_pos c with rfl | hpos
  · exact ⟨0, rfl⟩
  · have hsize : (ofNat c).size = c := by
      rw [size, ofNat, coefficient, power]
      simp
    have hlow : (2 : ℚ) ^ (-1022 : Int) ≤ c :=
      (zpow_le_one_of_nonpos₀ one_le_two (by decide)).trans (by exact_mod_cast hpos)
    have htop : (c : ℚ) < 2 ^ (1023 : Int) := by
      have hword : (c : ℚ) < 2 ^ (64 : Int) := by exact_mod_cast hc
      exact hword.trans (zpow_lt_zpow_right₀ one_lt_two (by decide))
    obtain ⟨m, q, hm, hcanonical, hcaptures, -⟩ := exists_captures hlow htop
    obtain ⟨x, hx, -⟩ := magnitude?_of_captures hcanonical (hsize ▸ hcaptures)
    exact ⟨x, hx⟩

end Numeral

end MarchingDrill.Decimal
