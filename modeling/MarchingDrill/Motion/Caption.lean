import MarchingDrill.Decimal.Layout
import MarchingDrill.Motion.Command

/-!
The captions of commands, as performers read them on their sheets.
-/

namespace MarchingDrill

open Decimal Numeric

def Move.evenCaption (m : Move) (steps : Float) : String :=
  let dx := snap (m.start.to m.finish).1
  let dy := snap (m.start.to m.finish).2
  let northSouth := if dx < 0 then "S" else "N"
  let eastWest := if dy < 0 then "W" else "E"
  let ax := dx.abs
  let ay := dy.abs
  if ax == 0 && ay == steps then "Move " ++ caption steps ++ " " ++ eastWest
  else if ay == 0 && ax == steps then "Move " ++ caption steps ++ " " ++ northSouth
  else if ax == ay && ax == steps then "Move " ++ caption steps ++ " " ++ northSouth ++ eastWest
  else
    let way :=
      if !isWhole ax || !isWhole ay then (Wind.ofBearing m.direction).label
      else
        let alongY := if ay == 0 then [] else [caption ay ++ " " ++ eastWest]
        let alongX := if ax == 0 then [] else [caption ax ++ " " ++ northSouth]
        if (alongY ++ alongX).isEmpty then "0" else ", ".intercalate (alongY ++ alongX)
    "Even " ++ way ++ " (" ++ caption steps ++ " steps)"

def Command.caption (c : Command) : String :=
  match c with
  | .move m =>
    match m.style with
    | .march => "Move " ++ Decimal.caption c.steps ++ " " ++ (Wind.ofBearing m.direction).label
    | .even => m.evenCaption c.steps
  | .stop s =>
    if s.markTime then
      "MT " ++ Decimal.caption c.steps ++ " " ++ (Wind.ofBearing s.facing).label
    else "Close"
  | .arc a =>
    "GT " ++ (if a.degrees < 0 then "CCW " else "CW ") ++ Decimal.caption a.degrees.abs ++
      " deg. (" ++ Decimal.caption c.steps ++ " steps)"

end MarchingDrill
