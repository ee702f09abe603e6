import MarchingDrill.Proofs.Continuity.Consumption
import MarchingDrill.Proofs.Continuity.Legs
import MarchingDrill.Proofs.Numeric.Snapping

/-! Proportion: how far a march gets on its leg in the beats that it takes. It covers the part of
the leg that its beats are of the beats of the whole leg, and so does not go faster than its pace,
as long as counts reach the beats of the leg. -/

namespace MarchingDrill

open Numeric Binary64

structure Spot.Within (d : ℚ) (s : Spot) : Prop where
  finite : s.Finite
  x : |number s.x| ≤ d
  y : |number s.y| ≤ d

theorem Spot.Within.apart {d : ℚ} {s t : Spot} (hs : s.Within d) (ht : t.Within d) :
    |number t.x - number s.x| ≤ 2 * d ∧ |number t.y - number s.y| ≤ 2 * d :=
  ⟨(abs_sub _ _).trans (by linarith [hs.x, ht.x]), (abs_sub _ _).trans (by linarith [hs.y, ht.y])⟩

def Move.north (m : Move) : ℚ := number m.finish.x - number m.start.x

def Move.east (m : Move) : ℚ := number m.finish.y - number m.start.y

section Axis

variable {x y : Float} (hx : x.isFinite = true) (hy : y.isFinite = true)
include hx hy

theorem abs_whole_sub_le (hxy : |number y - number x| ≤ 2 * 10 ^ 10) :
    |number (snap y) - number x - number (y - x)| ≤ 23 / 10 ^ 7 := by
  obtain ⟨-, hdiff, -⟩ := approximates_sub hy hx (hxy.trans (by norm_num))
  have hsnap := abs_snap_sub_le hy
  rw [abs_le] at hsnap hdiff ⊢
  constructor <;> linarith

theorem abs_part_sub_le (hx10 : |number x| ≤ 10 ^ 10) (hxy : |number y - number x| ≤ 2 * 10 ^ 10)
    {beats natural : UInt32} (hpos : 1 ≤ beats) (hle : beats ≤ natural) :
    |number (snap (x + (y - x) * (beats.toFloat / natural.toFloat))) - number x -
      number (y - x) * (beats.toNat / natural.toNat)| ≤ 78 / 10 ^ 7 := by
  -- rounding enters into the difference, the fraction of the beats, their product and the sum
  obtain ⟨hdiff, hdiff', -⟩ := approximates_sub hy hx (hxy.trans (by norm_num))
  obtain ⟨hfraction, hfraction'⟩ := number_div_toFloat hpos (UInt32.le_trans hpos hle)
  have hq : |(beats.toNat : ℚ) / natural.toNat| ≤ 1 := by
    rw [abs_of_nonneg (by positivity)]
    exact div_le_one_of_le₀ (by exact_mod_cast UInt32.le_iff_toNat_le.mp hle) (by positivity)
  generalize (beats.toNat : ℚ) / natural.toNat = q at hfraction' hq ⊢
  have hlong : |number (y - x)| ≤ 2 * 10 ^ 10 + 1 := by
    linarith [abs_sub_abs_le_abs_sub (number (y - x)) (number y - number x)]
  have hfraction'' : |number (beats.toFloat / natural.toFloat) - q| ≤ 1 / 2 ^ 53 := by
    linarith [(le_abs_self q).trans hq]
  -- the product with the rounded fraction and with the true one
  have hscaled : |number (y - x) * number (beats.toFloat / natural.toFloat) - number (y - x) * q| ≤
      (2 * 10 ^ 10 + 1) * (1 / 2 ^ 53) := by
    rw [← mul_sub, abs_mul]
    exact mul_le_mul hlong hfraction'' (abs_nonneg _) (by norm_num)
  have hexact : |number (y - x) * q| ≤ (2 * 10 ^ 10 + 1) * 1 := by
    rw [abs_mul]
    exact mul_le_mul hlong hq (abs_nonneg _) (by norm_num)
  have hway : |number (y - x) * number (beats.toFloat / natural.toFloat)| ≤ 2 * 10 ^ 10 + 2 := by
    linarith [abs_sub_abs_le_abs_sub
      (number (y - x) * number (beats.toFloat / natural.toFloat)) (number (y - x) * q)]
  obtain ⟨hproduct, hproduct', -⟩ := approximates_mul hdiff hfraction (hway.trans (by norm_num))
  have hend : |number x + number ((y - x) * (beats.toFloat / natural.toFloat))| ≤
      3 * 10 ^ 10 + 3 := by
    refine (abs_add_le _ _).trans ?_
    linarith [abs_sub_abs_le_abs_sub (number ((y - x) * (beats.toFloat / natural.toFloat)))
      (number (y - x) * number (beats.toFloat / natural.toFloat))]
  obtain ⟨hsum, hsum', -⟩ := approximates_add hx hproduct (hend.trans (by norm_num))
  have hsnap := abs_snap_sub_le hsum
  rw [abs_le] at hscaled hproduct' hsum' hsnap ⊢
  constructor <;> linarith

end Axis

section Leg

variable {g : Gait} {s t : Spot} {budget : UInt32} {m : Move}

theorem Gait.leg?_in_proportion (hs : s.Within (10 ^ 10)) (ht : t.Finite)
    (hx : |number t.x - number s.x| ≤ 2 * 10 ^ 10) (hy : |number t.y - number s.y| ≤ 2 * 10 ^ 10)
    (h : g.leg? s t budget = some m) :
    m.duration = min (g.beats ⟨s, t⟩) budget ∧
      |m.north - number (t.x - s.x) * (m.duration.toNat / (g.beats ⟨s, t⟩).toNat)| ≤ 78 / 10 ^ 7 ∧
      |m.east - number (t.y - s.y) * (m.duration.toNat / (g.beats ⟨s, t⟩).toNat)| ≤
        78 / 10 ^ 7 := by
  obtain ⟨hbudget, hne, hcases⟩ := leg?_eq_some h
  rcases hcases with ⟨hfits, rfl⟩ | ⟨hshort, rfl⟩
  · have hall : ((g.beats ⟨s, t⟩).toNat : ℚ) / (g.beats ⟨s, t⟩).toNat = 1 :=
      div_self (by exact_mod_cast Nat.ne_of_gt (hs.finite.one_le_beats ht hne g))
    refine ⟨(if_pos hfits).symm, ?_, ?_⟩
    · change |_ - _ * (((g.beats ⟨s, t⟩).toNat : ℚ) / _)| ≤ _
      rw [hall, mul_one]
      exact (abs_whole_sub_le hs.finite.1 ht.1 hx).trans (by norm_num)
    · change |_ - _ * (((g.beats ⟨s, t⟩).toNat : ℚ) / _)| ≤ _
      rw [hall, mul_one]
      exact (abs_whole_sub_le hs.finite.2 ht.2 hy).trans (by norm_num)
  · have hbeats : 1 ≤ budget := by
      refine UInt32.le_iff_toNat_le.mpr (Nat.pos_of_ne_zero fun h0 => hbudget ?_)
      exact UInt32.toNat_inj.mp h0
    have hle := UInt32.le_of_lt hshort
    exact ⟨(if_neg (UInt32.not_le.mpr hshort)).symm,
      abs_part_sub_le hs.finite.1 ht.1 hs.x hx hbeats hle,
      abs_part_sub_le hs.finite.2 ht.2 hs.y hy hbeats hle⟩

theorem Gait.leg?_share (hs : s.Finite) (ht : t.Finite) (h : g.leg? s t budget = some m) :
    (0 : ℚ) < (g.beats ⟨s, t⟩).toNat ∧ (m.duration.toNat : ℚ) ≤ (g.beats ⟨s, t⟩).toNat ∧
      (0 : ℚ) ≤ m.duration.toNat / (g.beats ⟨s, t⟩).toNat ∧
      (m.duration.toNat : ℚ) / (g.beats ⟨s, t⟩).toNat ≤ 1 := by
  obtain ⟨-, hne, hcases⟩ := leg?_eq_some h
  have hnatural : (0 : ℚ) < (g.beats ⟨s, t⟩).toNat := by exact_mod_cast hs.one_le_beats ht hne g
  have hle : (m.duration.toNat : ℚ) ≤ (g.beats ⟨s, t⟩).toNat := by
    obtain ⟨-, rfl⟩ | ⟨hshort, rfl⟩ := hcases
    · exact le_rfl
    · exact_mod_cast UInt32.le_iff_toNat_le.mp (UInt32.le_of_lt hshort)
  exact ⟨hnatural, hle, by positivity, (div_le_one hnatural).mpr hle⟩

theorem number_larger {x y : Float} (hx : x.isFinite = true) (hy : y.isFinite = true) :
    (larger x y).isFinite = true ∧ number (larger x y) = max (number x) (number y) := by
  unfold larger
  rw [isNaN_eq_false hx, isNaN_eq_false hy, if_neg Bool.false_ne_true, if_neg Bool.false_ne_true]
  split
  · next hlt => exact ⟨hy, (max_eq_right ((number_lt_iff hx hy).mp hlt).le).symm⟩
  · next hge => exact ⟨hx, (max_eq_left (not_lt.mp ((number_lt_iff hx hy).not.mp hge))).symm⟩

theorem Spot.exists_longer (hx : (t.x - s.x).isFinite = true) (hy : (t.y - s.y).isFinite = true) :
    ∃ longer : Float, s.steps t = snap longer ∧ longer.isFinite = true ∧
      number longer = max |number (t.x - s.x)| |number (t.y - s.y)| := by
  obtain ⟨hx', hnx⟩ := number_abs hx
  obtain ⟨hy', hny⟩ := number_abs hy
  obtain ⟨hfinite, hlarger⟩ := number_larger hx' hy'
  rw [hnx, hny] at hlarger
  exact ⟨_, rfl, hfinite, hlarger⟩

theorem number_product_near {steps : Float} (hfinite : steps.isFinite = true)
    (hpos : 1 / 10 ^ 9 ≤ number steps) (htop : number steps ≤ 3 * 10 ^ 10) {b : UInt32}
    (hb : 1 ≤ b) :
    (snap (steps.abs * b.toFloat)).isFinite = true ∧ 0 ≤ value (snap (steps.abs * b.toFloat)) ∧
      |number (snap (steps.abs * b.toFloat)) - number steps * b.toNat| ≤
        number steps * b.toNat / 2 ^ 53 + 1002 / 10 ^ 12 := by
  obtain ⟨habs, hsame⟩ := number_abs hfinite
  rw [abs_of_pos (by linarith)] at hsame
  have hb1 : (1 : ℚ) ≤ b.toNat := by exact_mod_cast UInt32.le_iff_toNat_le.mp hb
  have hb32 : (b.toNat : ℚ) ≤ 2 ^ 32 := by exact_mod_cast b.toNat_lt.le
  have hlow : 1 / 10 ^ 9 * 1 ≤ number steps * b.toNat :=
    mul_le_mul hpos hb1 (by norm_num) (by linarith)
  have hhigh : number steps * b.toNat ≤ 3 * 10 ^ 10 * 2 ^ 32 :=
    mul_le_mul htop hb32 (by linarith) (by norm_num)
  obtain ⟨hproduct, hnear, -⟩ := approximates_mul habs (value_toFloat b).1 (by
    rw [hsame, number_toFloat, abs_of_pos (by linarith)]
    exact hhigh.trans (by norm_num))
  rw [hsame, number_toFloat] at hnear
  have hsnap := abs_snap_sub_le hproduct
  rw [abs_of_pos (a := number steps * _) (by linarith), abs_le] at hnear
  rw [abs_le] at hsnap ⊢
  have hvalue : 0 ≤ value (steps.abs * b.toFloat) := number_nonneg_iff.mp (by linarith)
  refine ⟨isFinite_snap hproduct, ?_, by linarith, by linarith⟩
  rcases value_snap hproduct hvalue with ⟨hkept, -⟩ | ⟨n, hwhole, -⟩ <;> omega

theorem cast_largest : ((2 ^ 32 - 1 : Nat) : ℚ) = 2 ^ 32 - 1 := by norm_num

theorem beatsForSteps_near {steps : Float} (hfinite : steps.isFinite = true)
    (hpos : 1 / 10 ^ 9 ≤ number steps) (htop : number steps ≤ 3 * 10 ^ 10) (beatsPerStep : UInt32) :
    min (number steps * (max beatsPerStep 1).toNat) (2 ^ 32 - 1) ≤
        (beatsForSteps steps beatsPerStep).toNat + 5 / 10 ^ 7 ∧
      (beatsForSteps steps beatsPerStep).toNat ≤
        min (number steps * (max beatsPerStep 1).toNat) (2 ^ 32 - 1) + (1 + 5 / 10 ^ 7) := by
  obtain ⟨hproduct, hvalue, hnear⟩ :=
    number_product_near hfinite hpos htop (one_le_max_one beatsPerStep)
  have hp0 := number_nonneg_iff.mpr hvalue
  have hceil := toNat_countUp_eq_ceil hproduct hvalue
  change (beatsForSteps steps beatsPerStep).toNat = _ at hceil
  rw [hceil, Nat.cast_min, cast_largest]
  generalize number (snap (steps.abs * (max beatsPerStep 1).toFloat)) = p at hp0 hnear ⊢
  rw [abs_le] at hnear
  have hle := Nat.le_ceil p
  have hlt := Nat.ceil_lt_add_one hp0
  rcases le_total (number steps * (max beatsPerStep 1).toNat) (2 ^ 32 - 1) with hreach | hover
  · rw [min_eq_left hreach]
    refine ⟨?_, (min_le_left _ _).trans (by linarith)⟩
    rcases min_choice (⌈p⌉₊ : ℚ) (2 ^ 32 - 1) with heq | heq <;> rw [heq] <;> linarith
  · rw [min_eq_right hover]
    refine ⟨?_, (min_le_right _ _).trans (by linarith)⟩
    rcases min_choice (⌈p⌉₊ : ℚ) (2 ^ 32 - 1) with heq | heq <;> rw [heq] <;> linarith

theorem part_within_pace {steps b natural beats : ℚ} (hb : 1 ≤ b) (hnatural : 0 < natural)
    (hbeats : 0 ≤ beats) (hle : beats ≤ natural) (h : steps * b ≤ natural + 5 / 10 ^ 7) :
    steps * (beats / natural) ≤ beats / b + 5 / 10 ^ 7 := by
  have hq : 0 ≤ beats / natural := div_nonneg hbeats hnatural.le
  have hq1 : beats / natural ≤ 1 := (div_le_one hnatural).mpr hle
  have hscaled : steps * (beats / natural) * b ≤ beats + 5 / 10 ^ 7 := calc
    steps * (beats / natural) * b = steps * b * (beats / natural) := mul_right_comm _ _ _
    _ ≤ (natural + 5 / 10 ^ 7) * (beats / natural) := mul_le_mul_of_nonneg_right h hq
    _ = beats + 5 / 10 ^ 7 * (beats / natural) := by
      rw [add_mul, mul_div_cancel₀ _ hnatural.ne']
    _ ≤ beats + 5 / 10 ^ 7 := by linarith
  calc
    steps * (beats / natural) ≤ (beats + 5 / 10 ^ 7) / b :=
      (le_div_iff₀ (by linarith)).mpr hscaled
    _ = beats / b + 5 / 10 ^ 7 / b := add_div _ _ _
    _ ≤ beats / b + 5 / 10 ^ 7 := by
      linarith [div_le_self (by norm_num : (0 : ℚ) ≤ 5 / 10 ^ 7) hb]

theorem abs_le_of_part {a d q steps pace : ℚ} (h : |a - d * q| ≤ 78 / 10 ^ 7)
    (hd : |d| ≤ steps + 1001 / 10 ^ 12) (hq : 0 ≤ q ∧ q ≤ 1)
    (hpace : steps * q ≤ pace + 5 / 10 ^ 7) : |a| ≤ pace + 1 / 10 ^ 5 := by
  have hpart : |d * q| ≤ (steps + 1001 / 10 ^ 12) * q := by
    rw [abs_mul, abs_of_nonneg hq.1]
    exact mul_le_mul_of_nonneg_right hd hq.1
  linarith [abs_sub_abs_le_abs_sub a (d * q)]

theorem Spot.Finite.slack_le_steps (hs : s.Finite) (ht : t.Finite)
    (hfinite : (s.steps t).isFinite = true) (hne : (s.steps t == 0) = false) :
    1 / 10 ^ 9 ≤ number (s.steps t) := by
  have hle : number snapWidth ≤ number (s.steps t) := by
    cases hs.atLeast_steps ht hne with
    | infinite top =>
      change (s.steps t).toModel.unpack.isFinite = true at hfinite
      rw [top] at hfinite
      cases hfinite
    | finite _ le =>
      rw [number, number, value_snapWidth.2]
      exact div_le_div_of_nonneg_right (by exact_mod_cast le) one_cast_pos.le
  rw [number_snapWidth] at hle
  exact le_trans (by norm_num) hle

theorem Spot.Within.steps_near (hs : s.Within (10 ^ 10)) (ht : t.Within (10 ^ 10)) :
    (s.steps t).isFinite = true ∧ number (s.steps t) ≤ 3 * 10 ^ 10 ∧
      |number (s.steps t) - (max |number (t.x - s.x)| |number (t.y - s.y)|)| ≤ 1001 / 10 ^ 12 := by
  obtain ⟨hx, hy⟩ := hs.apart ht
  obtain ⟨hfx, hnx, -⟩ := approximates_sub ht.finite.1 hs.finite.1 (hx.trans (by norm_num))
  obtain ⟨hfy, hny, -⟩ := approximates_sub ht.finite.2 hs.finite.2 (hy.trans (by norm_num))
  obtain ⟨longer, heq, hfinite, hnumber⟩ := Spot.exists_longer hfx hfy
  have hnear := abs_snap_sub_le hfinite
  rw [← heq, hnumber] at hnear
  have htop : max |number (t.x - s.x)| |number (t.y - s.y)| ≤ 2 * 10 ^ 10 + 1 := by
    refine max_le ?_ ?_
    · linarith [abs_sub_abs_le_abs_sub (number (t.x - s.x)) (number t.x - number s.x)]
    · linarith [abs_sub_abs_le_abs_sub (number (t.y - s.y)) (number t.y - number s.y)]
  exact ⟨heq ▸ isFinite_snap hfinite, by linarith [(abs_le.mp hnear).2], hnear⟩

theorem Gait.beats_enough (g : Gait) (hs : s.Within (10 ^ 10)) (ht : t.Within (10 ^ 10))
    (hne : (s.steps t == 0) = false) :
    (number (s.steps t) * (max g.beatsPerStep 1).toNat ≤ 2 ^ 32 - 1 →
      number (s.steps t) * (max g.beatsPerStep 1).toNat ≤
        (g.beats ⟨s, t⟩).toNat + 5 / 10 ^ 7) ∧
    (2 ^ 32 - 1 < number (s.steps t) * (max g.beatsPerStep 1).toNat →
      (g.beats ⟨s, t⟩).toNat = 2 ^ 32 - 1) := by
  obtain ⟨hfinite, htop, -⟩ := hs.steps_near ht
  obtain ⟨hlow, -⟩ := beatsForSteps_near hfinite
    (hs.finite.slack_le_steps ht.finite hfinite hne) htop g.beatsPerStep
  change _ ≤ ((g.beats ⟨s, t⟩).toNat : ℚ) + _ at hlow
  refine ⟨fun hreach => by rwa [min_eq_left hreach] at hlow, fun hover => ?_⟩
  rw [min_eq_right hover.le] at hlow
  by_contra hless
  have hbelow : (g.beats ⟨s, t⟩).toNat + 1 ≤ 2 ^ 32 - 1 := by
    have := (g.beats ⟨s, t⟩).toNat_lt
    omega
  have hcast : ((g.beats ⟨s, t⟩).toNat : ℚ) + 1 ≤ 2 ^ 32 - 1 := by
    rw [← cast_largest]
    exact_mod_cast hbelow
  linarith

theorem Gait.leg?_keeps_pace (hs : s.Within (10 ^ 10)) (ht : t.Within (10 ^ 10))
    (h : g.leg? s t budget = some m)
    (hreach : number (s.steps t) * (max g.beatsPerStep 1).toNat ≤ 2 ^ 32 - 1) :
    |m.north| ≤ m.duration.toNat / (max g.beatsPerStep 1).toNat + 1 / 10 ^ 5 ∧
      |m.east| ≤ m.duration.toNat / (max g.beatsPerStep 1).toNat + 1 / 10 ^ 5 := by
  obtain ⟨-, hne, -⟩ := leg?_eq_some h
  obtain ⟨-, hnorth, heast⟩ :=
    leg?_in_proportion hs ht.finite (hs.apart ht).1 (hs.apart ht).2 h
  obtain ⟨hnatural, hle, hq⟩ := leg?_share hs.finite ht.finite h
  have hb : (1 : ℚ) ≤ (max g.beatsPerStep 1).toNat := by
    exact_mod_cast UInt32.le_iff_toNat_le.mp (one_le_max_one g.beatsPerStep)
  have hpace := part_within_pace hb hnatural (Nat.cast_nonneg _) hle
    ((g.beats_enough hs ht hne).1 hreach)
  have hsteps := (abs_le.mp (hs.steps_near ht).2.2).1
  have hx := le_max_left |number (t.x - s.x)| |number (t.y - s.y)|
  have hy := le_max_right |number (t.x - s.x)| |number (t.y - s.y)|
  exact ⟨abs_le_of_part hnorth (by linarith) hq hpace, abs_le_of_part heast (by linarith) hq hpace⟩

theorem Gait.leg?_past_counts (hs : s.Within (10 ^ 10)) (ht : t.Within (10 ^ 10))
    (h : g.leg? s t budget = some m)
    (hover : 2 ^ 32 - 1 < number (s.steps t) * (max g.beatsPerStep 1).toNat) :
    |(max |m.north| |m.east|) - number (s.steps t) * (m.duration.toNat / (2 ^ 32 - 1))| ≤
      1 / 10 ^ 5 := by
  obtain ⟨-, hne, -⟩ := leg?_eq_some h
  obtain ⟨-, hnorth, heast⟩ :=
    leg?_in_proportion hs ht.finite (hs.apart ht).1 (hs.apart ht).2 h
  obtain ⟨-, -, hq⟩ := leg?_share hs.finite ht.finite h
  have hsteps := (hs.steps_near ht).2.2
  rw [(g.beats_enough hs ht hne).2 hover, cast_largest] at hnorth heast hq
  generalize (m.duration.toNat : ℚ) / (2 ^ 32 - 1) = q at hnorth heast hq ⊢
  have hlonger : max |number (t.x - s.x) * q| |number (t.y - s.y) * q| =
      max |number (t.x - s.x)| |number (t.y - s.y)| * q := by
    rw [abs_mul, abs_mul, abs_of_nonneg hq.1, max_mul_of_nonneg _ _ hq.1]
  have hmax := (abs_max_sub_max_le_max |m.north| |m.east| _ _).trans
    (max_le ((abs_abs_sub_abs_le _ _).trans hnorth) ((abs_abs_sub_abs_le _ _).trans heast))
  rw [hlonger] at hmax
  have hscaled : |(max |number (t.x - s.x)| |number (t.y - s.y)|) * q - number (s.steps t) * q| ≤
      1001 / 10 ^ 12 := by
    rw [← sub_mul, abs_mul, abs_sub_comm, abs_of_nonneg hq.1]
    exact (mul_le_of_le_one_right (abs_nonneg _) hq.2).trans hsteps
  exact (abs_sub_le _ _ _).trans ((add_le_add hmax hscaled).trans (by norm_num))

end Leg

end MarchingDrill
