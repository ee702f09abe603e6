import MarchingDrill.Field.Bearing

/-!
Spots on the field, measured in steps, and the poses of dots on them.
-/

namespace MarchingDrill

open Numeric

/-- A place on the field. Steps north count along `x` and steps east along `y`. The test `==`
compares coordinates as numbers, whereas `=` also tells the two zeros apart. -/
structure Spot where
  x : Float
  y : Float
deriving DecidableEq, BEq, Repr, Inhabited

def Spot.Finite (s : Spot) : Prop := s.x.isFinite = true ∧ s.y.isFinite = true

def Spot.to (s t : Spot) : Float × Float := (t.x - s.x, t.y - s.y)

namespace Spot

def shift (s : Spot) (dx dy : Float) : Spot := ⟨s.x + dx, s.y + dy⟩

def distance (s t : Spot) : Float :=
  let (dx, dy) := s.to t
  (dx * dx + dy * dy).sqrt

def toward (s t : Spot) (fraction : Float) : Spot :=
  ⟨s.x + (t.x - s.x) * fraction, s.y + (t.y - s.y) * fraction⟩

def snapped (s : Spot) : Spot := ⟨snap s.x, snap s.y⟩

def near (s t : Spot) (width : Float) : Bool :=
  (s.x - t.x).abs ≤ width && (s.y - t.y).abs ≤ width

def steps (s t : Spot) : Float :=
  let (dx, dy) := s.to t
  snap (larger dx.abs dy.abs)

def bearingTo (s t : Spot) : Float :=
  let (dx, dy) := s.to t
  Bearing.ofDisplacement dx dy

end Spot

structure Pose where
  spot : Spot
  facing : Float
deriving DecidableEq, BEq, Repr, Inhabited

end MarchingDrill
