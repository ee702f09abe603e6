import MarchingDrill.Continuity.Scene

/-!
Routes: marching from spot to spot within a budget of beats, once or round and round.
-/

namespace MarchingDrill

open Numeric

def beatsForSteps (steps : Float) (beatsPerStep : UInt32) : UInt32 :=
  countUp (snap (steps.abs * (max beatsPerStep 1).toFloat))

structure Gait where
  facing : Option Float
  beatsPerStep : UInt32

def Gait.leg? (g : Gait) (start target : Spot) (budget : UInt32) : Option Move :=
  let steps := start.steps target
  if budget = 0 || steps == 0 then none
  else
    let natural := beatsForSteps steps g.beatsPerStep
    let duration := min natural budget
    -- cut short when the budget is
    let reached :=
      if duration < natural then start.toward target (duration.toFloat / natural.toFloat)
      else target
    some (Move.to start reached g.facing duration g.beatsPerStep .march)

structure Walk where
  passage : Passage
  budget : UInt32

def Walk.after (m : Move) (w : Walk) : Walk :=
  ⟨⟨.move m :: w.passage.commands, w.passage.cue⟩, w.budget⟩

def Gait.walk (g : Gait) : List Spot → UInt32 → Cue → Walk
  | [], budget, cue => ⟨.rest cue, budget⟩
  | s :: ss, budget, cue =>
    if budget = 0 then ⟨.rest cue, budget⟩
    else match g.leg? cue.spot s (min budget cue.beats) with
      | none => g.walk ss budget cue
      | some m => (g.walk ss (less budget m.duration) (cue.after (.move m))).after m

theorem Gait.leg?_duration_le {g : Gait} {start target : Spot} {budget : UInt32} {m : Move}
    (h : g.leg? start target budget = some m) : m.duration ≤ budget := by
  simp only [leg?] at h
  split at h
  · cases h
  · cases h
    exact Std.min_le_right

/-- A bound on the steps that a circle of `n` spots has left, which falls with the budget, else with
the marches without beats that it still allows, else with the spots in a row that it still tries. -/
def stepsLeft (n budget still idle : Nat) : Nat :=
  (budget * (n + 2) + (n + 1 - still)) * (n + 1) + (n - idle)

theorem stepsLeft_lt_of_lt {n budget still budget' still' : Nat} (idle idle' : Nat)
    (h : budget' * (n + 2) + (n + 1 - still') < budget * (n + 2) + (n + 1 - still)) :
    stepsLeft n budget' still' idle' < stepsLeft n budget still idle := by
  have hmul := Nat.mul_le_mul_right (n + 1) (Nat.succ_le_of_lt h)
  rw [Nat.succ_mul] at hmul
  unfold stepsLeft
  omega

theorem stepsLeft_lt_of_budget_lt {n budget budget' : Nat} (still idle idle' : Nat)
    (h : budget' < budget) : stepsLeft n budget' 0 idle' < stepsLeft n budget still idle := by
  have hmul := Nat.mul_le_mul_right (n + 2) (Nat.succ_le_of_lt h)
  rw [Nat.succ_mul] at hmul
  exact stepsLeft_lt_of_lt idle idle' (by omega)

/-- Marches round a loop of spots, from the one at `place` on, until the budget is used up or as
many spots in a row as the loop has need no march, which `idle` counts. The limit on `still`, the
marches in a row without beats, is no part of what a dot does: the circle gives up by it where the
rounds of the dot never end. Rounds that end never meet it (`Gait.Rounds.circle_eq`), and those
between finite spots do end (`Gait.exists_rounds_of_finite`). -/
def Gait.circle (g : Gait) (loop : List Spot) (place idle still : Nat) (budget : UInt32)
    (cue : Cue) : Walk :=
  if h : budget ≠ 0 ∧ idle < loop.length ∧ still ≤ loop.length then
    let target := loop.get ⟨place % loop.length, Nat.mod_lt _ (by omega)⟩
    match hm : g.leg? cue.spot target budget with
    | none => g.circle loop (place + 1) (idle + 1) still budget cue
    | some m =>
      (g.circle loop (place + 1) 0 (if m.duration = 0 then still + 1 else 0)
        (budget - m.duration) (cue.after (.move m))).after m
  else ⟨.rest cue, budget⟩
termination_by stepsLeft loop.length budget.toNat still idle
decreasing_by
  · unfold stepsLeft
    omega
  · have hle : m.duration.toNat ≤ budget.toNat := UInt32.le_iff_toNat_le.mp (leg?_duration_le hm)
    have hsub : (budget - m.duration).toNat = budget.toNat - m.duration.toNat :=
      UInt32.toNat_sub_of_le _ _ (leg?_duration_le hm)
    by_cases hz : m.duration = 0
    · rw [hz, dif_pos rfl, UInt32.sub_zero]
      exact stepsLeft_lt_of_lt _ _ (by omega)
    · have hne : m.duration.toNat ≠ 0 := fun h0 => hz (UInt32.toNat_inj.mp h0)
      rw [dif_neg hz]
      exact stepsLeft_lt_of_budget_lt _ _ _ (by omega)

end MarchingDrill
