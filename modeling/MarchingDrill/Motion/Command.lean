import MarchingDrill.Field.Spot

/-!
Commands: what one dot does for a number of beats. A march covers the ground between two spots, a
stop holds one, and an arc swings about a center.
-/

namespace MarchingDrill

inductive MoveStyle where
  | march
  | even
deriving DecidableEq, Repr, Inhabited

structure Move where
  start : Spot
  finish : Spot
  direction : Float
  facing : Float
  duration : UInt32
  beatsPerStep : UInt32
  style : MoveStyle
deriving DecidableEq, BEq, Repr

structure Stop where
  spot : Spot
  facing : Float
  duration : UInt32
  beatsPerStep : UInt32
  markTime : Bool
deriving DecidableEq, BEq, Repr

/-- Travel on a circle. Positive degrees turn clockwise. -/
structure Arc where
  start : Spot
  center : Spot
  degrees : Float
  duration : UInt32
  beatsPerStep : UInt32
  radius : Float
  startBearing : Float
  finish : Spot
deriving DecidableEq, BEq, Repr

inductive Command where
  | move (m : Move)
  | stop (s : Stop)
  | arc (a : Arc)
deriving DecidableEq, BEq, Repr

def Move.to (start target : Spot) (facing : Option Float) (duration beatsPerStep : UInt32)
    (style : MoveStyle) : Move :=
  let direction := start.bearingTo target
  -- a dot without a facing of its own faces the way it goes
  { start, finish := target.snapped, direction, facing := Bearing.wrap (facing.getD direction)
    duration, beatsPerStep := max beatsPerStep 1, style }

def Stop.at (spot : Spot) (facing : Float) (duration beatsPerStep : UInt32) (markTime : Bool) :
    Stop :=
  { spot, facing := Bearing.wrap facing, duration, beatsPerStep := max beatsPerStep 1, markTime }

def Arc.spotAt (a : Arc) (fraction : Float) : Spot :=
  let (ux, uy) := Bearing.unit (a.startBearing + a.degrees * fraction)
  (a.center.shift (ux * a.radius) (uy * a.radius)).snapped

def Arc.about (start center : Spot) (degrees : Float) (duration beatsPerStep : UInt32) : Arc :=
  let a : Arc :=
    { start, center, degrees, duration, beatsPerStep := max beatsPerStep 1
      radius := center.distance start, startBearing := center.bearingTo start, finish := start }
  -- without beats it stays where it starts
  if duration = 0 then a else { a with finish := a.spotAt 1 }

theorem Arc.about_start (start center : Spot) (degrees : Float) (duration beatsPerStep : UInt32) :
    (about start center degrees duration beatsPerStep).start = start := by
  unfold about
  split <;> rfl

theorem Arc.about_duration (start center : Spot) (degrees : Float)
    (duration beatsPerStep : UInt32) :
    (about start center degrees duration beatsPerStep).duration = duration := by
  unfold about
  split <;> rfl

def Arc.facingAt (a : Arc) (spot : Spot) : Float :=
  let turn : Float := if 0 < a.degrees then 1 else if a.degrees < 0 then -1 else 0
  Bearing.wrap (spot.bearingTo a.center - turn * 90)

namespace Command

def start : Command → Spot
  | move m => m.start
  | stop s => s.spot
  | arc a => a.start

def finish : Command → Spot
  | move m => m.finish
  | stop s => s.spot
  | arc a => a.finish

def facing : Command → Float
  | move m => m.facing
  | stop s => s.facing
  | arc a => a.facingAt a.start

def duration : Command → UInt32
  | move m => m.duration
  | stop s => s.duration
  | arc a => a.duration

def beatsPerStep : Command → UInt32
  | move m => m.beatsPerStep
  | stop s => s.beatsPerStep
  | arc a => a.beatsPerStep

def steps (c : Command) : Float := c.duration.toFloat / (max c.beatsPerStep 1).toFloat

end Command

end MarchingDrill
