import MarchingDrill.Proofs.Continuity.Following

/-! Waypoints: a walk that goes on behind commands that are there already. Its marches end on the
snapped waypoints in turn until the beats that it may take are used up, and two walks in a row with
one budget are one walk. -/

namespace MarchingDrill

def Spot.stops (s : Spot) (ts : List Spot) : List Spot :=
  (s.legs ts).map fun leg => leg.target.snapped

/-- The walk that goes on behind a passage, together with that passage. -/
def Passage.walkOn (p : Passage) (g : Gait) (spots : List Spot) (budget : UInt32) : Walk :=
  ⟨p.andThen (g.walk spots budget p.cue).passage, (g.walk spots budget p.cue).budget⟩

namespace Gait

theorem walk_append (g : Gait) (ss ts : List Spot) (budget : UInt32) (cue : Cue) :
    g.walk (ss ++ ts) budget cue =
      (g.walk ss budget cue).passage.walkOn g ts (g.walk ss budget cue).budget := by
  induction ss generalizing budget cue with
  | nil => rfl
  | cons s ss ih =>
    rw [List.cons_append, walk, walk]
    split
    · next hbudget =>
      have hmin : min budget cue.beats = 0 := by
        rw [hbudget]
        exact UInt32.le_zero_iff.mp Std.min_le_left
      have hrest := g.walk_of_no_beats ts hmin
      change _ = Walk.mk (g.walk ts budget cue).passage (g.walk ts budget cue).budget
      rw [hrest]
    · cases g.leg? cue.spot s (min budget cue.beats) with
      | none => exact ih budget cue
      | some m => exact congrArg (Walk.after m) (ih _ _)

namespace Covers

variable {g : Gait} {budget left : UInt32} {legs : List Leg} {moves : List Move}

theorem totalBeats_add (h : g.Covers budget legs moves left) :
    totalBeats (moves.map .move) + left.toNat = budget.toNat := by
  induction h with
  | none budget => exact Nat.zero_add _
  | @whole budget left leg legs moves fits _ ih =>
    have hfits := UInt32.le_iff_toNat_le.mp fits
    rw [UInt32.toNat_sub_of_le _ _ fits] at ih
    rw [List.map_cons, totalBeats, List.map_cons, exactSum_cons]
    change (g.beats leg).toNat + totalBeats (moves.map .move) + _ = _
    omega
  | part => rfl

theorem exists_whole (h : g.Covers budget legs moves left) :
    ∃ n ≤ legs.length, moves.take n = (legs.take n).map g.whole ∧
      (moves.drop n = [] ∨ ∃ (leg : Leg) (rest : UInt32), legs[n]? = some leg ∧ rest ≠ 0 ∧
        rest < g.beats leg ∧ moves.drop n = [g.part leg rest]) ∧
      (n < legs.length → left = 0) := by
  induction h with
  | none budget => exact ⟨0, Nat.le_refl _, rfl, .inl rfl, fun h => absurd h (Nat.lt_irrefl _)⟩
  | whole _ _ ih =>
    obtain ⟨n, hn, hwhole, hcut, hleft⟩ := ih
    exact ⟨n + 1, Nat.succ_le_succ hn, congrArg (List.cons _) hwhole, hcut,
      fun h => hleft (Nat.lt_of_succ_lt_succ h)⟩
  | @part budget leg some_left short =>
    exact ⟨0, Nat.zero_le _, rfl, .inr ⟨leg, budget, rfl, some_left, short, rfl⟩, fun _ => rfl⟩

end Covers

end Gait

namespace Passage

theorem walkOn_append (p : Passage) (g : Gait) (ss ts : List Spot) (budget : UInt32) :
    p.walkOn g (ss ++ ts) budget =
      (p.walkOn g ss budget).passage.walkOn g ts (p.walkOn g ss budget).budget := by
  unfold walkOn
  rw [g.walk_append]
  exact congrArg (Walk.mk · _) (andThen_assoc ..).symm

/-- A walk behind a passage visits its waypoints in order. It arrives on the first `n` spots on its
way, none of them left out, and only when the beats that it may take are used up is there a spot on
which it does not arrive: its last march is then cut short or it makes none. Going on from there
with the budget that is left is part of the same walk. -/
theorem walkOn_visits (p : Passage) (g : Gait) (spots : List Spot) (budget : UInt32) :
    (∃ (moves : List Move) (n : Nat),
      (p.walkOn g spots budget).passage.commands = p.commands ++ moves.map .move ∧
      n ≤ (p.cue.spot.stops spots).length ∧
      moves.take n = ((p.cue.spot.legs spots).take n).map g.whole ∧
      (moves.take n).map Move.finish = (p.cue.spot.stops spots).take n ∧
      (moves.drop n = [] ∨ ∃ (leg : Leg) (rest : UInt32),
        (p.cue.spot.legs spots)[n]? = some leg ∧ rest ≠ 0 ∧ rest < g.beats leg ∧
        moves.drop n = [g.part leg rest]) ∧
      totalBeats (moves.map .move) ≤ (min budget p.cue.beats).toNat ∧
      (n < (p.cue.spot.stops spots).length →
        totalBeats (moves.map .move) = (min budget p.cue.beats).toNat) ∧
      totalBeats (moves.map .move) + (p.walkOn g spots budget).budget.toNat = budget.toNat ∧
      (moves.map Command.move).foldl Cue.after p.cue = (p.walkOn g spots budget).passage.cue) ∧
    ∀ more : List Spot, p.walkOn g (spots ++ more) budget =
      (p.walkOn g spots budget).passage.walkOn g more (p.walkOn g spots budget).budget := by
  refine ⟨?_, fun more => p.walkOn_append g spots more budget⟩
  obtain ⟨k, moves, left, hmoves, hcovers, -, hend⟩ := g.walk_covers spots budget p.cue
  obtain ⟨n, hn, hwhole, hcut, hleft⟩ := hcovers.exists_whole
  have hcourse := g.walk_from spots budget p.cue
  obtain ⟨hafford, hspent⟩ := g.walk_within spots budget p.cue
  have htotal := hcovers.totalBeats_add
  have hbudget := hafford.totalBeats_add
  unfold From at hcourse
  rw [hspent] at hbudget
  rw [hmoves] at hcourse hbudget
  -- the legs that are covered are the first of all legs
  have hlegs : p.cue.spot.legs spots = p.cue.spot.legs (spots.take k) ++
      (p.cue.spot.arrival (spots.take k)).legs (spots.drop k) := by
    rw [← Spot.legs_append, List.take_append_drop]
  have htake : (p.cue.spot.legs spots).take n = (p.cue.spot.legs (spots.take k)).take n := by
    rw [hlegs, List.take_append_of_le_length hn]
  have hlength : (p.cue.spot.stops spots).length = (p.cue.spot.legs spots).length :=
    List.length_map _
  have hbound : (p.cue.spot.legs (spots.take k)).length ≤ (p.cue.spot.legs spots).length := by
    rw [hlegs, List.length_append]
    exact Nat.le_add_right _ _
  refine ⟨moves, n, congrArg (p.commands ++ ·) hmoves, hlength ▸ hn.trans hbound,
    htake ▸ hwhole, ?_, ?_, by omega, ?_, hbudget, hcourse.foldl_after⟩
  · rw [hwhole, Spot.stops, ← List.map_take, htake, List.map_map]
    rfl
  · refine hcut.imp_right fun ⟨leg, rest, hleg, hcut⟩ => ⟨leg, rest, ?_, hcut⟩
    have hlt := (List.getElem?_eq_some_iff.mp hleg).1
    rw [hlegs, List.getElem?_append_left hlt, hleg]
  · intro hlt
    have hnone : left = 0 := by
      by_contra hne
      have hall := (hend hne).1
      rw [List.take_of_length_le hall] at hleft
      exact hne (hleft (hlength ▸ hlt))
    rw [← htotal, hnone]
    rfl

end Passage

end MarchingDrill
