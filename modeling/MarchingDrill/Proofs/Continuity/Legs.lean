import MarchingDrill.Proofs.Continuity.Conservation
import MarchingDrill.Proofs.Continuity.Idle
import MarchingDrill.Proofs.Continuity.Pace
import MarchingDrill.Proofs.Numeric.Whole

/-! Legs: the straight ways of a dot that heads for spots in turn. Marching them within a budget
covers leg after leg in whole, and no leg but the last is cut short. Between finite spots every leg
takes a beat at least. -/

namespace MarchingDrill

open Numeric Binary64

structure Leg where
  start : Spot
  target : Spot
deriving DecidableEq, Repr

namespace Spot

/-- The legs of a dot that heads for spots in turn. It arrives on the snapped spots, and to a spot
at no distance there is no leg. -/
def legs : Spot → List Spot → List Leg
  | _, [] => []
  | s, t :: ts => if s.steps t == 0 then s.legs ts else ⟨s, t⟩ :: t.snapped.legs ts

def StandsOn (s : Spot) (ts : List Spot) : Prop := ∀ t ∈ ts, (s.steps t == 0) = true

def arrival : Spot → List Spot → Spot
  | s, [] => s
  | s, t :: ts => if s.steps t == 0 then s.arrival ts else t.snapped.arrival ts

end Spot

namespace Gait

def beats (g : Gait) (leg : Leg) : UInt32 :=
  beatsForSteps (leg.start.steps leg.target) g.beatsPerStep

def whole (g : Gait) (leg : Leg) : Move :=
  Move.to leg.start leg.target g.facing (g.beats leg) g.beatsPerStep .march

def part (g : Gait) (leg : Leg) (beats : UInt32) : Move :=
  Move.to leg.start (leg.start.toward leg.target (beats.toFloat / (g.beats leg).toFloat)) g.facing
    beats g.beatsPerStep .march

/-- Marches over legs in turn within a budget, and what they leave of it. Every leg is covered in
whole, except that the last one is cut short when the budget is used up on it. -/
inductive Covers (g : Gait) : UInt32 → List Leg → List Move → UInt32 → Prop
  | none (budget : UInt32) : Covers g budget [] [] budget
  | whole {budget left : UInt32} {leg : Leg} {legs : List Leg} {moves : List Move}
      (fits : g.beats leg ≤ budget) (rest : Covers g (budget - g.beats leg) legs moves left) :
      Covers g budget (leg :: legs) (g.whole leg :: moves) left
  | part {budget : UInt32} {leg : Leg} (some_left : budget ≠ 0) (short : budget < g.beats leg) :
      Covers g budget [leg] [g.part leg budget] 0

def legTo (g : Gait) (s : Spot) (cue : Cue) : Passage :=
  (g.leg? cue.spot s cue.beats).elim (.rest cue) fun m => .one cue (.move m)

end Gait

def Options.gait (o : Options) : Gait := ⟨o.asked, o.beatsPerStep⟩

section Finite

variable {s t : Spot}

theorem Spot.Finite.snapped (h : s.Finite) : s.snapped.Finite :=
  ⟨isFinite_snap h.1, isFinite_snap h.2⟩

theorem Spot.Finite.atLeast_steps (hs : s.Finite) (ht : t.Finite)
    (hne : (s.steps t == 0) = false) : AtLeast slackUnits (s.steps t) := by
  refine atLeast_snap ?_ hne
  have hx : (t.x - s.x).abs.isNaN = false := (isNaN_abs _).trans (isNaN_sub ht.1 hs.1)
  have hy : (t.y - s.y).abs.isNaN = false := (isNaN_abs _).trans (isNaN_sub ht.2 hs.2)
  have hx0 : AtLeast 0 (t.x - s.x).abs := atLeast_abs (isNaN_sub ht.1 hs.1)
  have hy0 : AtLeast 0 (t.y - s.y).abs := atLeast_abs (isNaN_sub ht.2 hs.2)
  change AtLeast 0 (larger (t.x - s.x).abs (t.y - s.y).abs)
  unfold larger
  rw [hx, hy, if_neg Bool.false_ne_true, if_neg Bool.false_ne_true]
  split
  · exact hy0
  · exact hx0

theorem one_le_beatsForSteps {steps : Float} (h : AtLeast slackUnits steps)
    (beatsPerStep : UInt32) : 1 ≤ (beatsForSteps steps beatsPerStep).toNat := by
  have hproduct := h.abs.mul_toFloat (one_le_max_one beatsPerStep) two_pow_le_slackUnits
    slackUnits_lt_one.le fits_slackUnits
  exact one_le_countUp (AtLeast.snap hproduct)

theorem Spot.Finite.one_le_beats (hs : s.Finite) (ht : t.Finite) (hne : (s.steps t == 0) = false)
    (g : Gait) : 1 ≤ (g.beats ⟨s, t⟩).toNat :=
  one_le_beatsForSteps (hs.atLeast_steps ht hne) _

end Finite

namespace Spot

variable (s : Spot) (ts us : List Spot)

theorem legs_append : s.legs (ts ++ us) = s.legs ts ++ (s.arrival ts).legs us := by
  induction ts generalizing s with
  | nil => rfl
  | cons t ts ih =>
    rw [List.cons_append, legs, legs, arrival]
    split
    · exact ih s
    · exact congrArg (List.cons _) (ih t.snapped)

variable {s ts}

theorem StandsOn.legs_eq_nil (h : s.StandsOn ts) : s.legs ts = [] := by
  induction ts with
  | nil => rfl
  | cons t ts ih =>
    obtain ⟨ht, hts⟩ := List.forall_mem_cons.mp h
    rw [legs, if_pos ht]
    exact ih hts

end Spot

namespace Gait

variable {g : Gait} {s t : Spot} {budget : UInt32}

theorem leg?_of_no_length (h : (s.steps t == 0) = true) : g.leg? s t budget = none := by
  simp only [leg?, h, Bool.or_true, if_true]

theorem leg?_of_fits (h : (s.steps t == 0) = false) (hbudget : budget ≠ 0)
    (hfits : g.beats ⟨s, t⟩ ≤ budget) : g.leg? s t budget = some (g.whole ⟨s, t⟩) := by
  have hmin : min (g.beats ⟨s, t⟩) budget = g.beats ⟨s, t⟩ := if_pos hfits
  unfold beats at hmin
  simp only [leg?, h, hbudget, decide_false, Bool.or_false, Bool.false_eq_true, if_false, hmin,
    UInt32.lt_irrefl]
  rfl

theorem leg?_of_short (h : (s.steps t == 0) = false) (hbudget : budget ≠ 0)
    (hshort : budget < g.beats ⟨s, t⟩) : g.leg? s t budget = some (g.part ⟨s, t⟩ budget) := by
  have hmin : min (g.beats ⟨s, t⟩) budget = budget := if_neg (UInt32.not_le.mpr hshort)
  unfold beats at hmin hshort
  simp only [leg?, h, hbudget, decide_false, Bool.or_false, Bool.false_eq_true, if_false, hmin,
    hshort, if_true]
  rfl

theorem leg?_of_no_beats (g : Gait) (s t : Spot) : g.leg? s t 0 = none := rfl

theorem no_length_of_leg? (hbudget : budget ≠ 0) (h : g.leg? s t budget = none) :
    (s.steps t == 0) = true := by
  by_contra hne
  rw [Bool.not_eq_true] at hne
  rcases UInt32.le_or_lt (g.beats ⟨s, t⟩) budget with hfits | hshort
  · cases (leg?_of_fits hne hbudget hfits).symm.trans h
  · cases (leg?_of_short hne hbudget hshort).symm.trans h

theorem leg?_eq_some {m : Move} (h : g.leg? s t budget = some m) :
    budget ≠ 0 ∧ (s.steps t == 0) = false ∧
      ((g.beats ⟨s, t⟩ ≤ budget ∧ m = g.whole ⟨s, t⟩) ∨
        (budget < g.beats ⟨s, t⟩ ∧ m = g.part ⟨s, t⟩ budget)) := by
  have hbudget : budget ≠ 0 := by
    rintro rfl
    cases h
  have hne : (s.steps t == 0) = false := by
    by_contra hne
    rw [Bool.not_eq_false] at hne
    cases (leg?_of_no_length hne).symm.trans h
  refine ⟨hbudget, hne, ?_⟩
  rcases UInt32.le_or_lt (g.beats ⟨s, t⟩) budget with hfits | hshort
  · exact .inl ⟨hfits, Option.some.inj (h.symm.trans (leg?_of_fits hne hbudget hfits))⟩
  · exact .inr ⟨hshort, Option.some.inj (h.symm.trans (leg?_of_short hne hbudget hshort))⟩

end Gait

theorem min_less {a b d : UInt32} (h : d ≤ min a b) : min (less a d) (less b d) = min a b - d := by
  have hmin : ∀ a b : UInt32, min a b = if a ≤ b then a else b := fun _ _ => rfl
  have ha : d ≤ a := UInt32.le_trans h Std.min_le_left
  have hb : d ≤ b := UInt32.le_trans h Std.min_le_right
  rw [less_of_le ha, less_of_le hb, hmin, hmin]
  have hiff : a - d ≤ b - d ↔ a ≤ b := by
    rw [UInt32.le_iff_toNat_le, UInt32.le_iff_toNat_le, UInt32.toNat_sub_of_le _ _ ha,
      UInt32.toNat_sub_of_le _ _ hb]
    rw [UInt32.le_iff_toNat_le] at ha hb
    omega
  by_cases hab : a ≤ b
  · rw [if_pos hab, if_pos (hiff.mpr hab)]
  · rw [if_neg hab, if_neg fun hle => hab (hiff.mp hle)]

namespace Gait

theorem walk_of_no_beats (g : Gait) (spots : List Spot) {budget : UInt32} {cue : Cue}
    (h : min budget cue.beats = 0) : g.walk spots budget cue = ⟨.rest cue, budget⟩ := by
  induction spots with
  | nil => rfl
  | cons s ss ih =>
    rw [walk]
    split
    · rfl
    · rw [h, leg?_of_no_beats]
      exact ih

theorem Covers.toNat_left {g : Gait} {budget left : UInt32} {legs : List Leg} {moves : List Move}
    (h : g.Covers budget legs moves left) :
    left.toNat = budget.toNat - exactSum (legs.map g.beats) := by
  induction h with
  | none => rfl
  | whole fits _ ih =>
    rw [ih, UInt32.toNat_sub_of_le _ _ fits, List.map_cons, exactSum_cons, Nat.sub_sub]
  | part _ short =>
    rw [List.map_cons, exactSum_cons, Nat.sub_eq_zero_of_le]
    · rfl
    · exact (UInt32.lt_iff_toNat_lt.mp short).le.trans (Nat.le_add_right _ _)

section Walk

variable {g : Gait} {s : Spot} {budget : UInt32} {cue : Cue}
  (hbeats : min budget cue.beats ≠ 0)
include hbeats

theorem ne_zero_of_min : budget ≠ 0 := by
  rintro rfl
  exact hbeats (UInt32.le_zero_iff.mp Std.min_le_left)

theorem walk_cons_of_no_length (h : (cue.spot.steps s == 0) = true) (ss : List Spot) :
    g.walk (s :: ss) budget cue = g.walk ss budget cue := by
  rw [walk, if_neg (ne_zero_of_min hbeats), leg?_of_no_length h]

theorem walk_cons_of_fits (h : (cue.spot.steps s == 0) = false)
    (hfits : g.beats ⟨cue.spot, s⟩ ≤ min budget cue.beats) (ss : List Spot) :
    g.walk (s :: ss) budget cue =
      (g.walk ss (less budget (g.beats ⟨cue.spot, s⟩))
        (cue.after (.move (g.whole ⟨cue.spot, s⟩)))).after (g.whole ⟨cue.spot, s⟩) := by
  rw [walk, if_neg (ne_zero_of_min hbeats), leg?_of_fits h hbeats hfits]
  rfl

theorem walk_cons_of_short (h : (cue.spot.steps s == 0) = false)
    (hshort : min budget cue.beats < g.beats ⟨cue.spot, s⟩) (ss : List Spot) :
    g.walk (s :: ss) budget cue =
      Walk.after (g.part ⟨cue.spot, s⟩ (min budget cue.beats))
        ⟨.rest (cue.after (.move (g.part ⟨cue.spot, s⟩ (min budget cue.beats)))),
          less budget (min budget cue.beats)⟩ := by
  have hover : min (less budget (min budget cue.beats))
      (cue.after (.move (g.part ⟨cue.spot, s⟩ (min budget cue.beats)))).beats = 0 :=
    (min_less (UInt32.le_refl _)).trans (UInt32.sub_self _)
  rw [walk, if_neg (ne_zero_of_min hbeats), leg?_of_short h hbeats hshort]
  exact congrArg (Walk.after _) (walk_of_no_beats g ss hover)

end Walk

theorem walk_covers (g : Gait) (spots : List Spot) (budget : UInt32) (cue : Cue) :
    ∃ (k : Nat) (moves : List Move) (left : UInt32),
      (g.walk spots budget cue).passage.commands = moves.map .move ∧
      g.Covers (min budget cue.beats) (cue.spot.legs (spots.take k)) moves left ∧
      min (g.walk spots budget cue).budget (g.walk spots budget cue).passage.cue.beats = left ∧
      (left ≠ 0 → spots.length ≤ k ∧
        (g.walk spots budget cue).passage.cue.spot = cue.spot.arrival spots) := by
  induction spots generalizing budget cue with
  | nil => exact ⟨0, [], _, rfl, .none _, rfl, fun _ => ⟨Nat.le_refl _, rfl⟩⟩
  | cons s ss ih =>
    by_cases hbeats : min budget cue.beats = 0
    · rw [walk_of_no_beats g _ hbeats, hbeats]
      exact ⟨0, [], 0, rfl, .none 0, hbeats, fun h => absurd rfl h⟩
    · cases h : cue.spot.steps s == 0 with
      | true =>
        obtain ⟨k, moves, left, hmoves, hcovers, hleft, hend⟩ := ih budget cue
        rw [walk_cons_of_no_length hbeats h, Spot.arrival, if_pos h]
        refine ⟨k + 1, moves, left, hmoves, ?_, hleft, fun h => ?_⟩
        · rwa [List.take_succ_cons, Spot.legs, if_pos h]
        · exact ⟨Nat.succ_le_succ (hend h).1, (hend h).2⟩
      | false =>
        rw [Spot.arrival, if_neg (Bool.eq_false_iff.mp h)]
        rcases UInt32.le_or_lt (g.beats ⟨cue.spot, s⟩) (min budget cue.beats) with hfits | hshort
        · obtain ⟨k, moves, left, hmoves, hcovers, hleft, hend⟩ :=
            ih (less budget (g.beats ⟨cue.spot, s⟩)) (cue.after (.move (g.whole ⟨cue.spot, s⟩)))
          rw [walk_cons_of_fits hbeats h hfits]
          refine ⟨k + 1, g.whole ⟨cue.spot, s⟩ :: moves, left, congrArg (List.cons _) hmoves, ?_,
            hleft, fun h => ⟨Nat.succ_le_succ (hend h).1, (hend h).2⟩⟩
          rw [List.take_succ_cons, Spot.legs, if_neg (Bool.eq_false_iff.mp h)]
          exact .whole hfits ((min_less hfits : _ = _) ▸ hcovers)
        · rw [walk_cons_of_short hbeats h hshort]
          refine ⟨1, [g.part ⟨cue.spot, s⟩ (min budget cue.beats)], 0, rfl, ?_,
            (min_less (UInt32.le_refl _)).trans (UInt32.sub_self _), fun h => absurd rfl h⟩
          rw [List.take_succ_cons, List.take_zero, Spot.legs, if_neg (Bool.eq_false_iff.mp h)]
          exact .part hbeats hshort

end Gait

namespace Options

variable (o : Options)

theorem march_cons (s : Spot) (ss : List Spot) (cue : Cue) :
    o.march o.asked (s :: ss) cue =
      (o.gait.legTo s cue).andThen (o.march o.asked ss (o.gait.legTo s cue).cue) := by
  have hmin : min cue.beats cue.beats = cue.beats := ite_self cue.beats
  change (Gait.walk o.gait _ _ _).passage = _
  rw [Gait.walk, hmin, Gait.legTo]
  split
  · next h =>
    rw [h]
    exact (o.march_of_no_beats h o.asked ss).symm
  · cases o.gait.leg? cue.spot s cue.beats with
    | none => rfl
    | some m => rfl

theorem march_covers (spots : List Spot) (cue : Cue) :
    ∃ (k : Nat) (moves : List Move),
      (o.march o.asked spots cue).commands = moves.map .move ∧
      o.gait.Covers cue.beats (cue.spot.legs (spots.take k)) moves
        (o.march o.asked spots cue).cue.beats ∧
      ((o.march o.asked spots cue).cue.beats ≠ 0 → spots.length ≤ k ∧
        (o.march o.asked spots cue).cue.spot = cue.spot.arrival spots) := by
  obtain ⟨k, moves, left, hmoves, hcovers, hleft, hend⟩ := o.gait.walk_covers spots cue.beats cue
  have hbudget := (o.gait.walk_within spots cue.beats cue).2
  rw [(o.gait.walk_from spots cue.beats cue).leftBehind_eq] at hbudget
  have hmin : ∀ n : UInt32, min n n = n := fun n => ite_self n
  rw [← hbudget, hmin] at hleft
  rw [hmin, ← hleft] at hcovers
  rw [← hleft] at hend
  exact ⟨k, moves, hmoves, hcovers, hend⟩

end Options

end MarchingDrill
