import MarchingDrill.Proofs.Continuity.CounterMarch
import MarchingDrill.Proofs.Continuity.Proportion

/-! Forward marches: a number of steps along one of the four winds. Cut short, they end in
proportion to their beats. -/

namespace MarchingDrill

open Numeric Binary64

namespace Cardinal

def way : Cardinal → Int × Int
  | east => (0, 1)
  | south => (-1, 0)
  | west => (0, -1)
  | north => (1, 0)

theorem abs_way_le (d : Cardinal) : |d.way.1| ≤ 1 ∧ |d.way.2| ≤ 1 := by
  cases d <;> decide

theorem max_abs_way (d : Cardinal) (n : ℚ) (hn : 0 ≤ n) :
    max |d.way.1 * n| |d.way.2 * n| = n := by
  cases d <;> simp [way, abs_of_nonneg hn, hn]

theorem abs_longer_sub_le (d : Cardinal) {a b n δ : ℚ} (hn : 0 ≤ n) (ha : |a - d.way.1 * n| ≤ δ)
    (hb : |b - d.way.2 * n| ≤ δ) : |(max |a| |b|) - n| ≤ δ := by
  have hways := d.max_abs_way n hn
  have hmax := abs_max_sub_max_le_max |a| |b| |d.way.1 * n| |d.way.2 * n|
  rw [hways] at hmax
  exact hmax.trans
    (max_le ((abs_abs_sub_abs_le _ _).trans ha) ((abs_abs_sub_abs_le _ _).trans hb))

end Cardinal

namespace Bearing

def unitBy (sin cos : Float → Float) (a : Float) : Float × Float :=
  let t := a * radiansPerDegree
  (snap (-sin t), snap (cos t))

/-- Sine and cosine are right to ten places on the four winds. -/
def RightOnWinds (sin cos : Float → Float) : Prop := ∀ d : Cardinal,
  let t := d.bearing * radiansPerDegree
  (sin t).isFinite = true ∧ |number (sin t) + d.way.1| ≤ 1 / 10 ^ 10 ∧
    (cos t).isFinite = true ∧ |number (cos t) - d.way.2| ≤ 1 / 10 ^ 10

theorem RightOnWinds.unitBy {sin cos : Float → Float} (h : RightOnWinds sin cos) (d : Cardinal) :
    ((unitBy sin cos d.bearing).1.isFinite = true ∧
      number (unitBy sin cos d.bearing).1 = d.way.1) ∧
    (unitBy sin cos d.bearing).2.isFinite = true ∧
      number (unitBy sin cos d.bearing).2 = d.way.2 := by
  obtain ⟨hsin, hsin', hcos, hcos'⟩ := h d
  obtain ⟨hneg, hnumber⟩ := number_neg hsin
  have hway : |(d.way.1 : ℚ)| ≤ 2 ^ 52 ∧ |(d.way.2 : ℚ)| ≤ 2 ^ 52 := by
    cases d <;> norm_num [Cardinal.way]
  refine ⟨⟨isFinite_snap hneg, number_snap_of_near hneg hway.1 ?_⟩,
    isFinite_snap hcos, number_snap_of_near hcos hway.2 (hcos'.trans (by norm_num))⟩
  rw [hnumber, ← neg_add', abs_neg]
  exact hsin'.trans (by norm_num)

def windSine (t : Float) : Float :=
  if t < 1 then 0 else if t < 2 then 1 else if t < 4 then 1.2246467991473532e-16 else -1

def windCosine (t : Float) : Float :=
  if t < 1 then 1
  else if t < 2 then 6.123233995736766e-17
  else if t < 4 then -1
  else -1.8369701987210297e-16

theorem rightOnWinds : RightOnWinds windSine windCosine := by
  intro d
  cases d <;> decide +kernel

end Bearing

/-- Coordinates from which a march of `n` steps is counted as such: those on a grid of 2^-16 steps,
where nothing is rounded, and those where snapping makes up for what is. -/
def SteadyAt (n : Nat) (x : Float) : Prop :=
  (∃ a : Int, number x = a / 2 ^ 16) ∨ |number x| + n ≤ 2 ^ 22

def Spot.Steady (n : Nat) (s : Spot) : Prop := SteadyAt n s.x ∧ SteadyAt n s.y

section Axis

variable {x w : Float} {k : Int} {n : UInt32}

theorem abs_steps_le (hk : |k| ≤ 1) (n : UInt32) : |(k : ℚ) * n.toNat| ≤ n.toNat := by
  rw [abs_mul, Nat.abs_cast]
  exact mul_le_of_le_one_left (Nat.cast_nonneg _) (by exact_mod_cast hk)

theorem number_unit_mul (hw : w.isFinite = true) (hwk : number w = k) (hk : |k| ≤ 1) (n : UInt32) :
    (w * n.toFloat).isFinite = true ∧ number (w * n.toFloat) = k * n.toNat := by
  have hn : (n.toNat : ℚ) ≤ 2 ^ 32 := by exact_mod_cast n.toNat_lt.le
  have hle := abs_steps_le hk n
  have hproduct := approximates_mul hw (value_toFloat n).1 (by
    rw [hwk, number_toFloat]
    linarith)
  rw [hwk, number_toFloat] at hproduct
  refine ⟨hproduct.finite, hproduct.exact ?_⟩
  have hheld := held_whole (k := k * n.toNat) (by
    have : |(k : ℚ) * n.toNat| ≤ 2 ^ 53 := by linarith
    exact_mod_cast this)
  exact_mod_cast hheld

theorem number_ahead_of_grid (hx : x.isFinite = true) (hx10 : |number x| ≤ 10 ^ 10) {a : Int}
    (ha : number x = a / 2 ^ 16) (hw : w.isFinite = true) (hwk : number w = k) (hk : |k| ≤ 1)
    (n : UInt32) : number (x + w * n.toFloat - x) = k * n.toNat := by
  obtain ⟨hp, hpk⟩ := number_unit_mul hw hwk hk n
  have hn : (n.toNat : ℚ) ≤ 2 ^ 32 := by exact_mod_cast n.toNat_lt.le
  have hle := abs_steps_le hk n
  have hsum := approximates_add hx hp (by
    rw [hpk]
    exact (abs_add_le _ _).trans (by linarith))
  rw [hpk] at hsum
  have hgrid : |((a + k * n.toNat * 2 ^ 16 : Int) : ℚ)| ≤ 2 ^ 53 := by
    rw [ha, abs_le] at hx10
    rw [abs_le] at hle
    push_cast
    exact abs_le.mpr ⟨by linarith, by linarith⟩
  have hsplit : ((a + k * n.toNat * 2 ^ 16 : Int) : ℚ) / 2 ^ 16 = number x + k * n.toNat := by
    rw [ha]
    push_cast
    ring
  have hexact := hsum.exact (hsplit ▸ held_of_grid (by exact_mod_cast hgrid) (by decide))
  have hwhole : number (x + w * n.toFloat) - number x = (k * n.toNat : Int) := by
    rw [hexact]
    push_cast
    ring
  have hdiff := approximates_sub hsum.finite hx (by
    rw [hwhole]
    push_cast
    linarith)
  rw [hwhole] at hdiff
  have hheld := hdiff.exact (held_whole (by
    have : |(k : ℚ) * n.toNat| ≤ 2 ^ 53 := by linarith
    exact_mod_cast this))
  rw [hheld]
  push_cast
  rfl

theorem beq_zero_of_number_pos (hx : x.isFinite = true) (hpos : 0 < number x) :
    (x == 0) = false := by
  by_contra hzero
  rw [Bool.not_eq_false, beq_iff hx rfl] at hzero
  have hvalue : value x = 0 := hzero
  rw [number, hvalue, Int.cast_zero, zero_div] at hpos
  exact lt_irrefl 0 hpos

theorem eq_toFloat_of_number (hx : x.isFinite = true) (hn : 1 ≤ n) (h : number x = n.toNat) :
    x = n.toFloat := by
  have hvalue : value x = value n.toFloat := by
    have hsame : number x * one = number n.toFloat * one := by
      rw [h, number_toFloat]
    rw [number_mul_one, number_mul_one] at hsame
    exact_mod_cast hsame
  refine eq_of_value_eq hx (value_toFloat n).1 hvalue ?_
  rw [hvalue, (value_toFloat n).2]
  have := Nat.mul_pos (UInt32.le_iff_toNat_le.mp hn) one_units_pos
  omega

theorem number_ahead (hx : x.isFinite = true) (hx10 : |number x| ≤ 10 ^ 10)
    (hw : w.isFinite = true) (hwk : number w = k) (hk : |k| ≤ 1) (n : UInt32) :
    (x + w * n.toFloat).isFinite = true ∧
      |number (x + w * n.toFloat) - number x| ≤ 2 * 10 ^ 10 ∧
      |number (x + w * n.toFloat - x) - k * n.toNat| ≤ 21 / 10 ^ 7 ∧
      (SteadyAt n.toNat x → |number (x + w * n.toFloat - x) - k * n.toNat| ≤ 999 / 10 ^ 12) := by
  obtain ⟨hp, hpk⟩ := number_unit_mul hw hwk hk n
  have hn : (n.toNat : ℚ) ≤ 2 ^ 32 := by exact_mod_cast n.toNat_lt.le
  have hle := abs_steps_le hk n
  have hend : |number x + k * n.toNat| ≤ |number x| + n.toNat :=
    (abs_add_le _ _).trans (by linarith)
  have hsum := approximates_add hx hp (by
    rw [hpk]
    linarith)
  rw [hpk] at hsum
  have hnear := abs_le.mp hsum.near
  rw [abs_le] at hle
  have hahead : |number (x + w * n.toFloat) - number x| ≤ n.toNat + 1 :=
    abs_le.mpr ⟨by linarith, by linarith⟩
  have hdiff := approximates_sub hsum.finite hx (by linarith)
  have hnear' := abs_le.mp hdiff.near
  refine ⟨hsum.finite, by linarith, abs_le.mpr ⟨by linarith, by linarith⟩, ?_⟩
  rintro (⟨a, ha⟩ | hsmall)
  · rw [number_ahead_of_grid hx hx10 ha hw hwk hk, sub_self, abs_zero]
    norm_num
  · have hpos := abs_nonneg (number x)
    exact abs_le.mpr ⟨by linarith, by linarith⟩

end Axis

def Spot.ahead (s : Spot) (unit : Float × Float) (n : UInt32) : Spot :=
  s.shift (unit.1 * n.toFloat) (unit.2 * n.toFloat)

namespace Options

def forward (o : Options) (unit : Float × Float) (steps : UInt32) (cue : Cue) : Passage :=
  o.march o.asked [cue.spot.ahead unit steps] cue

variable (o : Options) {cue : Cue} {m : Move}

theorem march_single (s : Spot) (h : o.gait.leg? cue.spot s cue.beats = some m) :
    o.march o.asked [s] cue = .one cue (.move m) := by
  rw [march_cons, Gait.legTo, h]
  rfl

end Options

theorem Figure.perform_forward (steps : UInt32) (d : Cardinal) (dot : DotId) (scene : Scene)
    (o : Options) (cue : Cue) : (Figure.forward steps d).perform dot scene o cue =
      .ok (o.forward (Bearing.unitBy Float.sin Float.cos d.bearing) steps cue) := rfl

/-- The march goes so many steps north and east, to the fifth place. -/
def Move.Covers (m : Move) (north east : ℚ) : Prop :=
  |m.north - north| ≤ 1 / 10 ^ 5 ∧ |m.east - east| ≤ 1 / 10 ^ 5

def Move.CoversAlong (m : Move) (d : Cardinal) (steps : ℚ) : Prop :=
  m.Covers (d.way.1 * steps) (d.way.2 * steps)

/-- A march of `n` steps along a wind, at `b` beats to the step, takes its own beats or all that
there are, and gets as far as these are of its own beats. -/
structure Move.InProportion (m : Move) (cue : Cue) (d : Cardinal) (n b : Nat) (own : UInt32) :
    Prop where
  start : m.start = cue.spot
  duration : m.duration = min own cue.beats
  covers : m.CoversAlong d (n * (m.duration.toNat / own.toNat))
  near : |(own.toNat : ℚ) - min (n * b : ℚ) (2 ^ 32 - 1)| ≤ 1 + b / 10 ^ 5
  exact_of_steady : cue.spot.Steady n → own.toNat = min (n * b) (2 ^ 32 - 1)

/-- A march that is cut short uses up the beats that there are. It gets as many steps far as they
are worth, or as far as they are of the largest count of beats where this does not reach the march's
own. -/
structure Move.CutShort (m : Move) (beats : UInt32) (d : Cardinal) (n b : Nat) : Prop where
  duration : m.duration = beats
  within_counts : n * b ≤ 2 ^ 32 - 1 → m.CoversAlong d (beats.toNat / b)
  past_counts : 2 ^ 32 - 1 < n * b → m.CoversAlong d (n * (beats.toNat / (2 ^ 32 - 1)))

section Forward

variable {sin cos : Float → Float} {n : UInt32} {cue : Cue}

theorem steps_ahead (h : Bearing.RightOnWinds sin cos) (d : Cardinal) {s : Spot}
    (hs : s.Within (10 ^ 10)) (hn : 1 ≤ n) :
    (s.steps (s.ahead (Bearing.unitBy sin cos d.bearing) n)).isFinite = true ∧
      |number (s.steps (s.ahead (Bearing.unitBy sin cos d.bearing) n)) - n.toNat| ≤ 22 / 10 ^ 7 ∧
      (s.Steady n.toNat → s.steps (s.ahead (Bearing.unitBy sin cos d.bearing) n) = n.toFloat) := by
  obtain ⟨⟨hux, hnx⟩, huy, hny⟩ := h.unitBy d
  obtain ⟨hfx, hlx, hx, hsx⟩ := number_ahead hs.finite.1 hs.x hux hnx d.abs_way_le.1 n
  obtain ⟨hfy, hly, hy, hsy⟩ := number_ahead hs.finite.2 hs.y huy hny d.abs_way_le.2 n
  have hdx := (approximates_sub hfx hs.finite.1 (hlx.trans (by norm_num))).finite
  have hdy := (approximates_sub hfy hs.finite.2 (hly.trans (by norm_num))).finite
  obtain ⟨longer, heq, hlonger, hnumber⟩ :=
    Spot.exists_longer (t := s.ahead (Bearing.unitBy sin cos d.bearing) n) hdx hdy
  have hn0 : (0 : ℚ) ≤ n.toNat := Nat.cast_nonneg _
  rw [heq]
  refine ⟨isFinite_snap hlonger, ?_, fun hsteady => ?_⟩
  · have hnear : |number longer - n.toNat| ≤ 21 / 10 ^ 7 := hnumber ▸ d.abs_longer_sub_le hn0 hx hy
    exact (abs_sub_le _ (number longer) _).trans
      ((add_le_add (abs_snap_sub_le hlonger) hnear).trans (by norm_num))
  · have hnear : |number longer - n.toNat| ≤ 999 / 10 ^ 12 :=
      hnumber ▸ d.abs_longer_sub_le hn0 (hsx hsteady.1) (hsy hsteady.2)
    have hn32 : (n.toNat : ℚ) ≤ 2 ^ 32 := by exact_mod_cast n.toNat_lt.le
    refine eq_toFloat_of_number (isFinite_snap hlonger) hn ?_
    exact number_snap_of_near hlonger (k := n.toNat) (by
      rw [Int.cast_natCast, Nat.abs_cast]
      linarith) hnear

theorem abs_part_sub_ahead_le {a d k n q : ℚ} (ha : |a - d * q| ≤ 78 / 10 ^ 7)
    (hd : |d - k * n| ≤ 21 / 10 ^ 7) (hq : 0 ≤ q ∧ q ≤ 1) : |a - k * (n * q)| ≤ 1 / 10 ^ 5 := by
  have hpart : |d * q - k * (n * q)| ≤ 21 / 10 ^ 7 * 1 := by
    rw [← mul_assoc, ← sub_mul, abs_mul, abs_of_nonneg hq.1]
    exact mul_le_mul hd hq.2 hq.1 (by norm_num)
  exact (abs_sub_le a (d * q) _).trans ((add_le_add ha hpart).trans (by norm_num))

theorem beats_near_of_steps {steps n b natural : ℚ} (hb : 1 ≤ b)
    (hsteps : |steps - n| ≤ 22 / 10 ^ 7)
    (hlow : min (steps * b) (2 ^ 32 - 1) ≤ natural + 5 / 10 ^ 7)
    (hhigh : natural ≤ min (steps * b) (2 ^ 32 - 1) + (1 + 5 / 10 ^ 7)) :
    |natural - min (n * b) (2 ^ 32 - 1)| ≤ 1 + b / 10 ^ 5 := by
  have hmin : |min (steps * b) (2 ^ 32 - 1) - min (n * b) (2 ^ 32 - 1)| ≤ 22 / 10 ^ 7 * b := by
    refine (abs_min_sub_min_le_max _ _ _ _).trans (max_le ?_ ?_)
    · rw [← sub_mul, abs_mul, abs_of_pos (by linarith : 0 < b)]
      exact mul_le_mul_of_nonneg_right hsteps (by linarith)
    · rw [sub_self, abs_zero]
      linarith
  rw [abs_le] at hmin ⊢
  constructor <;> linarith

theorem Options.exists_forward (h : Bearing.RightOnWinds sin cos) (o : Options) (d : Cardinal)
    (hspot : cue.spot.Within (10 ^ 10)) (hn : 1 ≤ n) (hbeats : 1 ≤ cue.beats) :
    ∃ (m : Move) (own : UInt32),
      o.forward (Bearing.unitBy sin cos d.bearing) n cue = .one cue (.move m) ∧
      m.InProportion cue d n.toNat (max o.beatsPerStep 1).toNat own := by
  obtain ⟨⟨hux, hnx⟩, huy, hny⟩ := h.unitBy d
  obtain ⟨hfx, hlx, hx, -⟩ := number_ahead hspot.finite.1 hspot.x hux hnx d.abs_way_le.1 n
  obtain ⟨hfy, hly, hy, -⟩ := number_ahead hspot.finite.2 hspot.y huy hny d.abs_way_le.2 n
  obtain ⟨hfinite, hsteps, hsteady⟩ := steps_ahead h d hspot hn
  have hn1 : (1 : ℚ) ≤ n.toNat := by exact_mod_cast UInt32.le_iff_toNat_le.mp hn
  have hn32 : (n.toNat : ℚ) ≤ 2 ^ 32 := by exact_mod_cast n.toNat_lt.le
  have hsteps' := abs_le.mp hsteps
  have htarget : (cue.spot.ahead (Bearing.unitBy sin cos d.bearing) n).Finite := ⟨hfx, hfy⟩
  cases hm : o.gait.leg? cue.spot
      (cue.spot.ahead (Bearing.unitBy sin cos d.bearing) n) cue.beats with
  | none =>
    have hbudget : cue.beats ≠ 0 := by
      intro h0
      rw [h0] at hbeats
      exact absurd hbeats (by decide)
    refine absurd (Gait.no_length_of_leg? hbudget hm) (Bool.eq_false_iff.mp ?_)
    exact beq_zero_of_number_pos hfinite (by linarith)
  | some m =>
    obtain ⟨hduration, hnorth, heast⟩ :=
      Gait.leg?_in_proportion hspot htarget hlx hly hm
    obtain ⟨-, -, hq⟩ := Gait.leg?_share hspot.finite htarget hm
    refine ⟨m, _, o.march_single _ hm, Gait.leg?_start hm, hduration,
      ⟨abs_part_sub_ahead_le hnorth hx hq, abs_part_sub_ahead_le heast hy hq⟩, ?_,
      fun hstands => ?_⟩
    · have hb : (1 : ℚ) ≤ (max o.beatsPerStep 1).toNat := by
        exact_mod_cast UInt32.le_iff_toNat_le.mp (one_le_max_one o.beatsPerStep)
      obtain ⟨hlow, hhigh⟩ :=
        beatsForSteps_near hfinite (by linarith) (by linarith) o.beatsPerStep
      exact beats_near_of_steps hb hsteps hlow hhigh
    · change (beatsForSteps (cue.spot.steps _) o.beatsPerStep).toNat = _
      rw [hsteady hstands, toNat_beatsForSteps_toFloat]

theorem min_eq_beats {natural beats : UInt32} {n b : Nat}
    (hnatural : natural.toNat = min (n * b) (2 ^ 32 - 1)) (hshort : beats.toNat < n * b) :
    min natural beats = beats := by
  have := beats.toNat_lt
  refine UInt32.toNat_inj.mp ?_
  rw [toNat_min, hnatural]
  omega

theorem mul_part_of_steps {n b : Nat} (hn : 1 ≤ n) (hb : 1 ≤ b) (r : Nat) :
    (n : ℚ) * (r / (n * b : Nat)) = r / b := by
  have hn' : (n : ℚ) ≠ 0 := by exact_mod_cast Nat.ne_of_gt hn
  have hb' : (b : ℚ) ≠ 0 := by exact_mod_cast Nat.ne_of_gt hb
  push_cast
  field_simp

theorem Move.InProportion.cutShort {m : Move} {d : Cardinal} {n b : Nat} {own : UInt32}
    (h : m.InProportion cue d n b own) (hn : 1 ≤ n) (hb : 1 ≤ b) (hsteady : cue.spot.Steady n)
    (hshort : cue.beats.toNat < n * b) : m.CutShort cue.beats d n b := by
  have hown := h.exact_of_steady hsteady
  have hall := h.duration.trans (min_eq_beats hown hshort)
  have hcovers := h.covers
  rw [hall, hown] at hcovers
  refine ⟨hall, fun hreach => ?_, fun hover => ?_⟩
  · rwa [min_eq_left hreach, mul_part_of_steps hn hb] at hcovers
  · rwa [min_eq_right hover.le, cast_largest] at hcovers

end Forward

/-- A march on a leg to `t` takes some of the beats, and goes no faster than its pace as long as
counts reach the beats of the leg. Beyond them it ends as if the leg took the largest count of
beats. -/
structure Move.KeepsPace (m : Move) (g : Gait) (t : Spot) (cue : Cue) : Prop where
  start : m.start = cue.spot
  one_le_duration : 1 ≤ m.duration
  duration_le : m.duration ≤ cue.beats
  within_counts : number (cue.spot.steps t) * (max g.beatsPerStep 1).toNat ≤ 2 ^ 32 - 1 →
    |m.north| ≤ m.duration.toNat / (max g.beatsPerStep 1).toNat + 1 / 10 ^ 5 ∧
    |m.east| ≤ m.duration.toNat / (max g.beatsPerStep 1).toNat + 1 / 10 ^ 5
  past_counts : 2 ^ 32 - 1 < number (cue.spot.steps t) * (max g.beatsPerStep 1).toNat →
    |(max |m.north| |m.east|) - number (cue.spot.steps t) * (m.duration.toNat / (2 ^ 32 - 1))| ≤
      1 / 10 ^ 5

theorem Gait.keepsPace {g : Gait} {t : Spot} {cue : Cue} {m : Move}
    (hs : cue.spot.Within (10 ^ 10)) (ht : t.Within (10 ^ 10))
    (hm : g.leg? cue.spot t cue.beats = some m) : m.KeepsPace g t cue where
  start := leg?_start hm
  one_le_duration := UInt32.le_iff_toNat_le.mpr (one_le_duration_of_finite hs.finite ht.finite hm)
  duration_le := leg?_duration_le hm
  within_counts := leg?_keeps_pace hs ht hm
  past_counts := leg?_past_counts hs ht hm

/-- Legs go no faster than their pace, and forward marches that are cut short end in proportion to
their beats, as long as counts reach the beats of the leg. Beyond them a leg counts as if it took
the largest count of beats. From spots that are not steady, rounding may add a beat or so to those
of a march or take it away, and the march then ends in proportion to these. -/
theorem legs_in_proportion {s : Spot} (hs : s.Within (10 ^ 10)) {beats : UInt32}
    (hbeats : 1 ≤ beats) :
    (∀ (g : Gait) (t : Spot) (m : Move), t.Within (10 ^ 10) → g.leg? s t beats = some m →
      m.KeepsPace g t ⟨s, beats⟩) ∧
    (∀ (steps : UInt32) (d : Cardinal) (dot : DotId) (scene : Scene) (o : Options),
      (Figure.forward steps d).perform dot scene o ⟨s, beats⟩ =
        .ok (o.forward (Bearing.unitBy Float.sin Float.cos d.bearing) steps ⟨s, beats⟩)) ∧
    ∀ (sin cos : Float → Float), Bearing.RightOnWinds sin cos →
      ∀ (o : Options) (d : Cardinal) (n : UInt32), 1 ≤ n →
        let b := (max o.beatsPerStep 1).toNat
        ∃ (m : Move) (own : UInt32),
          o.forward (Bearing.unitBy sin cos d.bearing) n ⟨s, beats⟩ =
            .one ⟨s, beats⟩ (.move m) ∧
          m.InProportion ⟨s, beats⟩ d n.toNat b own ∧
          (s.Steady n.toNat → beats.toNat < n.toNat * b → m.CutShort beats d n.toNat b) := by
  refine ⟨fun g t m ht hm => ?_, fun steps d dot scene o => ?_, ?_⟩
  · exact @Gait.keepsPace g t ⟨s, beats⟩ m hs ht hm
  · exact Figure.perform_forward steps d dot scene o _
  · intro sin cos hwinds o d n hn b
    obtain ⟨m, own, hforward, hproportion⟩ :=
      @Options.exists_forward sin cos n ⟨s, beats⟩ hwinds o d hs hn hbeats
    refine ⟨m, own, hforward, hproportion, fun hsteady hshort => ?_⟩
    have hb := UInt32.le_iff_toNat_le.mp (one_le_max_one o.beatsPerStep)
    exact hproportion.cutShort (UInt32.le_iff_toNat_le.mp hn) hb hsteady hshort

/-- In a hundred beats, two to the step, a march of 4294967295 steps gets a hundred steps far. -/
theorem legs_in_proportion_past_counts :
    (∃ m : Move, (⟨none, 2⟩ : Gait).leg? ⟨0, 0⟩ ⟨0, 4294967295⟩ 100 = some m ∧
      |max |m.north| |m.east| - 100| ≤ 1 / 10 ^ 5) ∧
    (∃ m : Move, (⟨none, 1⟩ : Gait).leg? ⟨0, 0⟩ ⟨0, 8⟩ 4 = some m ∧
      |m.north| ≤ 4 + 1 / 10 ^ 5 ∧ |m.east| ≤ 4 + 1 / 10 ^ 5) ∧
    Bearing.RightOnWinds Bearing.windSine Bearing.windCosine ∧
    (∃ m : Move, (⟨2, .east, none⟩ : Options).forward
        (Bearing.unitBy Bearing.windSine Bearing.windCosine Cardinal.east.bearing) 4294967295
        ⟨⟨0, 0⟩, 100⟩ = .one ⟨⟨0, 0⟩, 100⟩ (.move m) ∧ m.duration = 100 ∧ m.Covers 0 100) ∧
    ∃ m : Move, (⟨1, .east, none⟩ : Options).forward
        (Bearing.unitBy Bearing.windSine Bearing.windCosine Cardinal.east.bearing) 8
        ⟨⟨0, 0⟩, 4⟩ = .one ⟨⟨0, 0⟩, 4⟩ (.move m) ∧ m.duration = 4 ∧ m.Covers 0 4 := by
  have hmiddle : (⟨0, 0⟩ : Spot).Within (10 ^ 10) :=
    ⟨⟨rfl, rfl⟩, by decide +kernel, by decide +kernel⟩
  have hsteady : ∀ n, (⟨0, 0⟩ : Spot).Steady n := fun _ =>
    ⟨.inl ⟨0, by decide +kernel⟩, .inl ⟨0, by decide +kernel⟩⟩
  refine ⟨?_, ?_, Bearing.rightOnWinds, ?_, ?_⟩
  · have hm := @Gait.leg?_of_short ⟨none, 2⟩ ⟨0, 0⟩ ⟨0, 4294967295⟩ 100
      (by decide +kernel) (by decide) (by decide +kernel)
    have hsteps : number ((⟨0, 0⟩ : Spot).steps ⟨0, 4294967295⟩) = 4294967295 := by decide +kernel
    have hpace := (legs_in_proportion hmiddle (by decide)).1 _ _ _
      ⟨⟨rfl, rfl⟩, by decide +kernel, by decide +kernel⟩ hm
    have hnear := hpace.past_counts (hsteps ▸ by decide +kernel)
    have hpart : (4294967295 : ℚ) * ((100 : UInt32).toNat / (2 ^ 32 - 1)) = 100 := by decide +kernel
    rw [hsteps] at hnear
    exact ⟨_, hm, hpart ▸ hnear⟩
  · have hm := @Gait.leg?_of_short ⟨none, 1⟩ ⟨0, 0⟩ ⟨0, 8⟩ 4
      (by decide +kernel) (by decide) (by decide +kernel)
    have hpace := (legs_in_proportion hmiddle (by decide)).1 _ _ _
      ⟨⟨rfl, rfl⟩, by decide +kernel, by decide +kernel⟩ hm
    have hpart : ((4 : UInt32).toNat : ℚ) / (max 1 1 : UInt32).toNat = 4 := by decide +kernel
    exact ⟨_, hm, hpart ▸ hpace.within_counts (by decide +kernel)⟩
  · have hbeats : (1 : UInt32) ≤ 100 := by decide
    obtain ⟨m, own, hforward, -, hshort⟩ := (legs_in_proportion hmiddle hbeats).2.2
      _ _ Bearing.rightOnWinds ⟨2, .east, none⟩ .east 4294967295 (by decide)
    have hcut := hshort (hsteady _) (by decide)
    have hcovers : m.Covers _ _ := hcut.past_counts (by decide)
    refine ⟨m, hforward, hcut.duration, ?_⟩
    convert hcovers using 1 <;> decide +kernel
  · have hbeats : (1 : UInt32) ≤ 4 := by decide
    obtain ⟨m, own, hforward, -, hshort⟩ := (legs_in_proportion hmiddle hbeats).2.2
      _ _ Bearing.rightOnWinds ⟨1, .east, none⟩ .east 8 (by decide)
    have hcut := hshort (hsteady _) (by decide)
    have hcovers : m.Covers _ _ := hcut.within_counts (by decide)
    refine ⟨m, hforward, hcut.duration, ?_⟩
    convert hcovers using 1 <;> decide +kernel

end MarchingDrill
