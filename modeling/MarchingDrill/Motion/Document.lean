import MarchingDrill.Json.Record
import MarchingDrill.Json.Writing
import MarchingDrill.Motion.Command

/-!
Spots and commands in documents. A command carries the name of its kind in the member `type`.
-/

namespace MarchingDrill

open Json

namespace Spot

def toJson (s : Spot) : Json := record [("x", float s.x), ("y", float s.y)]

def ofJson? (v : Json) : Option Spot := do
  let fs ← v.fields? ["x", "y"]
  return ⟨← fs.required "x" float?, ← fs.required "y" float?⟩

end Spot

namespace MoveStyle

def name : MoveStyle → String
  | march => "march"
  | even => "even"

def ofName? : String → Option MoveStyle
  | "march" => some march
  | "even" => some even
  | _ => none

end MoveStyle

namespace Json

def untag? (tag : String) : Json → Option (String × Json)
  | .obj members => do
    let fs ← membersNamed? [tag] members
    let name ← fs.required tag text?
    return (name, .obj (members.filter fun m => m.1 != some tag))
  | .arr (name :: items) => do return (← name.text?, .arr items)
  | _ => none

def maxDepth : Nat := 127

/-- Tagged values are read in full before their kind is known, so that everything in them counts,
fields that are skipped included. -/
def fitsTagged (room : Nat) (v : Json) : Bool := v.depth ≤ room && v.legible

end Json

namespace Command

def moveFields : List String :=
  ["start", "end", "direction", "orientation", "duration", "beatsPerStep", "style"]

def stopFields : List String :=
  ["position", "orientation", "duration", "beatsPerStep", "isMarkTime"]

def arcFields : List String :=
  ["start", "origin", "degrees", "duration", "beatsPerStep", "radius", "startAngle", "end"]

def kind : Command → String
  | move _ => "move"
  | stop _ => "stop"
  | arc _ => "arc"

def ownMembers : Command → Fields
  | move m =>
    [("start", m.start.toJson), ("end", m.finish.toJson), ("direction", float m.direction),
      ("orientation", float m.facing), ("duration", word32 m.duration),
      ("beatsPerStep", word32 m.beatsPerStep), ("style", text m.style.name)]
  | stop s => [("position", s.spot.toJson), ("orientation", float s.facing),
      ("duration", word32 s.duration), ("beatsPerStep", word32 s.beatsPerStep),
      ("isMarkTime", .bool s.markTime)]
  | arc a => [("start", a.start.toJson), ("origin", a.center.toJson), ("degrees", float a.degrees),
      ("duration", word32 a.duration), ("beatsPerStep", word32 a.beatsPerStep),
      ("radius", float a.radius), ("startAngle", float a.startBearing), ("end", a.finish.toJson)]

def toJson (c : Command) : Json := record (("type", text c.kind) :: c.ownMembers)

def moveOfJson? (v : Json) : Option Move := do
  let fs ← v.fields? moveFields
  return {
    start := ← fs.required "start" Spot.ofJson?
    finish := ← fs.required "end" Spot.ofJson?
    direction := ← fs.required "direction" float?
    facing := ← fs.required "orientation" float?
    duration := ← fs.required "duration" word32?
    beatsPerStep := ← fs.required "beatsPerStep" word32?
    style := ← fs.withDefault "style" .march (choice? isNothing MoveStyle.ofName?) }

def stopOfJson? (v : Json) : Option Stop := do
  let fs ← v.fields? stopFields
  return {
    spot := ← fs.required "position" Spot.ofJson?
    facing := ← fs.required "orientation" float?
    duration := ← fs.required "duration" word32?
    beatsPerStep := ← fs.required "beatsPerStep" word32?
    markTime := ← fs.required "isMarkTime" bool? }

def arcOfJson? (v : Json) : Option Arc := do
  let fs ← v.fields? arcFields
  return {
    start := ← fs.required "start" Spot.ofJson?
    center := ← fs.required "origin" Spot.ofJson?
    degrees := ← fs.required "degrees" float?
    duration := ← fs.required "duration" word32?
    beatsPerStep := ← fs.required "beatsPerStep" word32?
    radius := ← fs.required "radius" float?
    startBearing := ← fs.required "startAngle" float?
    finish := ← fs.required "end" Spot.ofJson? }

def ofJson? (v : Json) : Option Command := do
  if !fitsTagged maxDepth v then none
  match ← untag? "type" v with
  | ("move", v) => return .move (← moveOfJson? v)
  | ("stop", v) => return .stop (← stopOfJson? v)
  | ("arc", v) => return .arc (← arcOfJson? v)
  | _ => none

def toText (c : Command) : String := c.toJson.toText

def ofText? (s : String) : Option Command := (Json.ofText? s).bind ofJson?

end Command

end MarchingDrill
