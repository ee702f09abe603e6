import MarchingDrill.Numeric.Whole

/-!
Bearings on the field, in degrees: east 0, south 90, west 180, north 270. A step north adds to `x`
and a step east to `y`, so that the bearing `a` leads along `(-sin a, cos a)`.
-/

namespace MarchingDrill

open Numeric

namespace Bearing

def radiansPerDegree : Float := 3.141592653589793 / 180

def degreesPerRadian : Float := 180 / 3.141592653589793

def wrap (a : Float) : Float :=
  let r := turnRemainder a
  let w := snap (if r < 0 then r + 360 else r)
  if 360 ≤ w then w - 360 else w

def unit (a : Float) : Float × Float :=
  let t := a * radiansPerDegree
  (snap (-t.sin), snap t.cos)

def ofDisplacement (dx dy : Float) : Float :=
  -- standing still counts as east
  if dx == 0 && dy == 0 then 0 else wrap (Float.atan2 (-dx) dy * degreesPerRadian)

/-- The bearing of a displacement along the x axis. Standing still counts as north. -/
def alongX (dx : Float) : Float := if dx < 0 then 90 else 270

end Bearing

inductive Cardinal where
  | east
  | south
  | west
  | north
deriving DecidableEq, Repr

namespace Cardinal

def all : List Cardinal := [east, south, west, north]

def bearing : Cardinal → Float
  | east => 0
  | south => 90
  | west => 180
  | north => 270

def label : Cardinal → String
  | east => "E"
  | south => "S"
  | west => "W"
  | north => "N"

def name : Cardinal → String
  | east => "east"
  | south => "south"
  | west => "west"
  | north => "north"

def ofName? (s : String) : Option Cardinal := all.find? (·.name = s)

def nearest (a : Float) : Cardinal :=
  let w := Bearing.wrap a
  -- halfway between two winds, east and west win
  if w ≤ 45 || 315 ≤ w then east
  else if w < 135 then south
  else if w ≤ 225 then west
  else north

end Cardinal

inductive Wind where
  | east
  | southEast
  | south
  | southWest
  | west
  | northWest
  | north
  | northEast
deriving DecidableEq, Repr

namespace Wind

def ofBearing (a : Float) : Wind :=
  let w := Bearing.wrap a
  if w == 0 then east
  else if w < 90 then southEast
  else if w == 90 then south
  else if w < 180 then southWest
  else if w == 180 then west
  else if w < 270 then northWest
  else if w == 270 then north
  else northEast

def label : Wind → String
  | east => "E"
  | southEast => "SE"
  | south => "S"
  | southWest => "SW"
  | west => "W"
  | northWest => "NW"
  | north => "N"
  | northEast => "NE"

end Wind

inductive Facing where
  | east
  | west
deriving DecidableEq, Repr, Inhabited

namespace Facing

def bearing : Facing → Float
  | east => 0
  | west => 180

def name : Facing → String
  | east => "east"
  | west => "west"

def ofName? : String → Option Facing
  | "east" => some east
  | "west" => some west
  | _ => none

def label (f : Facing) : String := (Wind.ofBearing f.bearing).label

end Facing

end MarchingDrill
