import MarchingDrill.Continuity.LineUp
import MarchingDrill.Field.Spot
import MarchingDrill.Roster.Symbol

/-!
Continuities: what the dots of a symbol are told to do on a sheet. A figure is a single
instruction, and a two-step starts a list of further continuities dot after dot.
-/

namespace MarchingDrill

/-- How a dot waits once it has reached its spot. -/
inductive Ending where
  | markTime
  | close
deriving DecidableEq, Repr, Inhabited

inductive GridOrder where
  | eastWestFirst
  | northSouthFirst
deriving DecidableEq, Repr, Inhabited

inductive DiagonalOrder where
  | diagonalFirst
  | straightFirst
deriving DecidableEq, Repr, Inhabited

namespace Ending

def label : Ending → String
  | markTime => "MT"
  | close => "CL"

def ofLabel? : String → Option Ending
  | "MT" => some markTime
  | "CL" => some close
  | _ => none

end Ending

namespace GridOrder

def label : GridOrder → String
  | eastWestFirst => "EWNS"
  | northSouthFirst => "NSEW"

def ofLabel? : String → Option GridOrder
  | "EWNS" => some eastWestFirst
  | "NSEW" => some northSouthFirst
  | _ => none

end GridOrder

namespace DiagonalOrder

def label : DiagonalOrder → String
  | diagonalFirst => "DMHS"
  | straightFirst => "HSDM"

def ofLabel? : String → Option DiagonalOrder
  | "DMHS" => some diagonalFirst
  | "HSDM" => some straightFirst
  | _ => none

end DiagonalOrder

/-- A single instruction. Durations that are left out last for the rest of the sheet. -/
inductive Figure where
  | stop (markTime : Bool) (duration : Option UInt32)
  | forward (steps : UInt32) (direction : Cardinal)
  /-- Arrive at the next spot on the last beat. -/
  | even
  /-- Reach the next spot along the grid. -/
  | fountain (along : GridOrder) (ending : Ending)
  /-- Reach the next spot by a diagonal and a straight leg. -/
  | diagonal (along : DiagonalOrder) (ending : Ending)
  /-- Slide north or south to the next spot's line. -/
  | grapevine (ending : Ending)
  | gate (degrees : Float) (clockwise : Bool) (center : Spot)
  /-- File along the loop of the line-up's spots. -/
  | counterMarch (order : LineUp) (duration : Option UInt32)
  /-- Retrace the spots of the dots in front and then the leader's path. -/
  | followLeader (order : LineUp) (path : List Spot)
deriving DecidableEq, BEq, Repr

structure Tag where
  id : String
  symbol : Symbol
  beatsPerStep : Option UInt32
  facing : Option Facing
deriving DecidableEq, Repr

inductive Continuity where
  | figure (tag : Tag) (figure : Figure)
  | twoStep (tag : Tag) (order : LineUp) (markTime : Bool) (parts : List Continuity)
deriving BEq, Repr

namespace Figure

def signedDegrees (degrees : Float) (clockwise : Bool) : Float :=
  if clockwise then degrees else -degrees

def label : Figure → String
  | stop true _ => "mt"
  | stop false _ => "close"
  | forward .. => "fm"
  | even => "even"
  | fountain along _ => along.label
  | diagonal along _ => along.label
  | grapevine _ => "gv"
  | gate .. => "gate"
  | counterMarch .. => "cm"
  | followLeader .. => "ftl"

def order? : Figure → Option LineUp
  | counterMarch order _ | followLeader order _ => some order
  | _ => none

def withOrder? (order : LineUp) : Figure → Option Figure
  | counterMarch _ duration => some (counterMarch order duration)
  | followLeader _ path => some (followLeader order path)
  | _ => none

end Figure

namespace Continuity

def tag : Continuity → Tag
  | figure tag _ | twoStep tag .. => tag

def withTag (t : Tag) : Continuity → Continuity
  | figure _ f => figure t f
  | twoStep _ order markTime parts => twoStep t order markTime parts

def label : Continuity → String
  | figure _ f => f.label
  | twoStep .. => "two"

def order? : Continuity → Option LineUp
  | figure _ f => f.order?
  | twoStep _ order .. => some order

def editOrder? (f : LineUp → LineUp) : Continuity → Option Continuity
  | figure tag g => do return figure tag (← g.withOrder? (f (← g.order?)))
  | twoStep tag order markTime parts => some (twoStep tag (f order) markTime parts)

mutual

def walk : Continuity → List Continuity
  | c@(figure ..) => [c]
  | c@(twoStep _ _ _ parts) => c :: walkAll parts

def walkAll : List Continuity → List Continuity
  | [] => []
  | c :: cs => walk c ++ walkAll cs

end

mutual

def retag (s : Symbol) : Continuity → Continuity
  | figure tag f => figure { tag with symbol := s } f
  | twoStep tag order markTime parts =>
    twoStep { tag with symbol := s } order markTime (retagAll s parts)

def retagAll (s : Symbol) : List Continuity → List Continuity
  | [] => []
  | c :: cs => retag s c :: retagAll s cs

end

end Continuity

end MarchingDrill
