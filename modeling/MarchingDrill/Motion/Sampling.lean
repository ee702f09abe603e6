import MarchingDrill.Motion.Command

/-!
The pose of a dot at a beat of a command. A command holds from its first beat to its last, both
included, and a little beyond for beats that carry noise.
-/

namespace MarchingDrill

def beatSlack : Float := 1e-9

/-- A beat within a duration. Beats past the end, within the slack, become the end. -/
def beatWithin? (duration : UInt32) (beat : Float) : Option Float :=
  let d := duration.toFloat
  if beat.isNaN || beat < 0 || d + beatSlack < beat then none
  else some (if beat < d then beat else d)

def isEnd (duration : UInt32) (beat : Float) : Bool := duration = 0 || duration.toFloat ≤ beat

def Move.spotAt (m : Move) (beat : Float) : Spot :=
  if isEnd m.duration beat then m.finish
  else m.start.toward m.finish (beat / m.duration.toFloat)

def Arc.spotAtBeat (a : Arc) (beat : Float) : Spot :=
  if isEnd a.duration beat then a.finish
  else if beat == 0 then a.start
  else a.spotAt (beat / a.duration.toFloat)

def Command.poseAt? (c : Command) (beat : Float) : Option Pose :=
  (beatWithin? c.duration beat).map fun b =>
    match c with
    | .move m => ⟨m.spotAt b, m.facing⟩
    | .stop s => ⟨s.spot, s.facing⟩
    | .arc a =>
      let spot := a.spotAtBeat b
      ⟨spot, a.facingAt spot⟩

end MarchingDrill
