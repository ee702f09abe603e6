import MarchingDrill.Json.Record
import MarchingDrill.Json.Writing

/-!
Settings for working out a performance.
-/

namespace MarchingDrill

open Json

structure Settings where
  /-- Whether a dot closes for the beats that its continuities leave unused. -/
  padUnusedBeats : Bool
  checkFormation : Bool
  formationTolerance : Float
  detectCollisions : Bool
  /-- Two dots clash when they are within this distance on both axes. -/
  collisionRadius : Float
deriving DecidableEq, BEq, Repr

namespace Settings

def standard : Settings := ⟨true, true, 1e-6, false, 1⟩

def toJson (c : Settings) : Json :=
  record [("padUnusedBeats", .bool c.padUnusedBeats), ("checkFormation", .bool c.checkFormation),
    ("formationTolerance", float c.formationTolerance),
    ("detectCollisions", .bool c.detectCollisions), ("collisionRadius", float c.collisionRadius)]

def fields : List String :=
  ["padUnusedBeats", "checkFormation", "formationTolerance", "detectCollisions", "collisionRadius"]

def ofJson? (v : Json) : Option Settings := do
  let fs ← v.fields? fields
  return {
    padUnusedBeats := ← fs.withDefault "padUnusedBeats" standard.padUnusedBeats bool?
    checkFormation := ← fs.withDefault "checkFormation" standard.checkFormation bool?
    formationTolerance := ← fs.withDefault "formationTolerance" standard.formationTolerance float?
    detectCollisions := ← fs.withDefault "detectCollisions" standard.detectCollisions bool?
    collisionRadius := ← fs.withDefault "collisionRadius" standard.collisionRadius float? }

end Settings

end MarchingDrill
