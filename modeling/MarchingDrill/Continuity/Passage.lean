import MarchingDrill.Continuity.Route

/-!
Carrying out continuities: each takes a dot's cue and gives a passage, whose cue goes to the next.
-/

namespace MarchingDrill

open Numeric

def Options.hold (o : Options) (markTime : Bool) (beats : UInt32) (cue : Cue) : Passage :=
  if beats = 0 then .rest cue
  else .one cue (.stop (Stop.at cue.spot o.facing.bearing beats o.beatsPerStep markTime))

def Options.settle (o : Options) (ending : Ending) (p : Passage) : Passage :=
  p.andThen (o.hold (ending matches .markTime) p.cue.beats p.cue)

def Cue.granted (cue : Cue) (duration : Option UInt32) : UInt32 :=
  min (duration.getD cue.beats) cue.beats

def Options.march (o : Options) (facing : Option Float) (spots : List Spot) (cue : Cue) : Passage :=
  (Gait.walk ⟨facing, o.beatsPerStep⟩ spots cue.beats cue).passage

def GridOrder.corner (along : GridOrder) (start target : Spot) : Spot :=
  match along with
  | .eastWestFirst => start.shift 0 (target.y - start.y)
  | .northSouthFirst => start.shift (target.x - start.x) 0

def DiagonalOrder.corner (along : DiagonalOrder) (start target : Spot) : Spot :=
  let (dx, dy) := start.to target
  -- the diagonal leg covers the shorter of the two axes
  let n := smaller dx.abs dy.abs
  match along with
  | .diagonalFirst => start.shift (n * signOf dx) (n * signOf dy)
  | .straightFirst => target.shift (-(n * signOf dx)) (-(n * signOf dy))

/-- The place on the loop of a counter march that a dot heads for first: the one behind its own, or
the foremost for a dot outside the order. -/
def LineUp.firstTarget (order : LineUp) (dot : DotId) : Nat := (order.place? dot).elim 0 (· + 1)

def LineUp.aheadOf (order : LineUp) (dot : DotId) (spots : List Spot) : List Spot :=
  (spots.take (order.slot dot)).reverse

def Figure.perform (f : Figure) (dot : DotId) (scene : Scene) (o : Options) (cue : Cue) :
    Except Fault Passage :=
  match f with
  | .stop markTime duration => .ok (o.hold markTime (cue.granted duration) cue)
  | .forward steps direction =>
    let (ux, uy) := Bearing.unit direction.bearing
    .ok (o.march o.asked [cue.spot.shift (ux * steps.toFloat) (uy * steps.toFloat)] cue)
  | .even => .ok <|
    match scene.next dot with
    | none => .rest cue
    | some target =>
      if cue.beats = 0 then .rest cue
      else .one cue (.move (Move.to cue.spot target o.asked cue.beats o.beatsPerStep .even))
  | .fountain along ending => .ok <|
    match scene.next dot with
    | none => .rest cue
    | some target => o.settle ending (o.march none [along.corner cue.spot target, target] cue)
  | .diagonal along ending => .ok <|
    match scene.next dot with
    | none => .rest cue
    | some target => o.settle ending (o.march none [along.corner cue.spot target, target] cue)
  | .grapevine ending => .ok <|
    match scene.next dot with
    | none => .rest cue
    | some target =>
      let dx := target.x - cue.spot.x
      o.settle ending <|
        if dx == 0 then .rest cue
        else o.march (some (Bearing.alongX dx)) [cue.spot.shift dx 0] cue
  | .gate degrees clockwise center => .ok <|
    if cue.beats = 0 then .rest cue
    else .one cue (.arc (Arc.about cue.spot center (signedDegrees degrees clockwise) cue.beats
      o.beatsPerStep))
  | .counterMarch order duration =>
    if order.isEmpty then .error (.emptyOrder "cm")
    else if cue.granted duration = 0 then .ok (.rest cue)
    else do
      let spots ← scene.spots order
      let w := Gait.circle ⟨o.asked, o.beatsPerStep⟩ spots (order.firstTarget dot) 0 0
        (cue.granted duration) cue
      return w.passage.andThen (o.hold true w.budget w.passage.cue)
  | .followLeader order path =>
    if order.isEmpty then .error (.emptyOrder "ftl")
    else do
      let spots ← scene.spots order
      return o.settle .markTime (o.march o.asked (order.aheadOf dot spots ++ path) cue)

def stepsPerSlot : UInt32 := 2

def Options.waitBeats (o : Options) (order : LineUp) (dot : DotId) (cue : Cue) : UInt32 :=
  min (beatsForSteps (UInt32.ofNat (order.slot dot) * stepsPerSlot).toFloat o.beatsPerStep)
    cue.beats

mutual

def Continuity.perform (dot : DotId) :
    Continuity → Scene → Cue → Except Fault Passage
  | .figure tag f, scene, cue => f.perform dot scene (tag.options scene.defaults) cue
  | .twoStep tag order markTime parts, scene, cue =>
    if order.isEmpty then .error (.emptyOrder "two")
    else do
      let o := tag.options scene.defaults
      let wait := o.hold markTime (o.waitBeats order dot cue) cue
      let inner ← scene.nested o
      let rest ← Continuity.performAll dot parts inner wait.cue
      return wait.andThen rest

def Continuity.performAll (dot : DotId) :
    List Continuity → Scene → Cue → Except Fault Passage
  | [], _, cue => .ok (.rest cue)
  | c :: cs, scene, cue => do
    let p ← Continuity.perform dot c scene cue
    let q ← Continuity.performAll dot cs scene p.cue
    return p.andThen q

end

end MarchingDrill
