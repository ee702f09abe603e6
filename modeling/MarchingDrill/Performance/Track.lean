import MarchingDrill.Motion.Caption
import MarchingDrill.Motion.Sampling
import MarchingDrill.Roster.Ident

/-!
Tracks: the commands of one dot sheet after sheet, and its pose at any beat. A beat on a boundary
belongs to what ends there.
-/

namespace MarchingDrill

def isOver (finish : UInt32) (beat : Float) : Bool := finish.toFloat < beat - beatSlack

def endsFrom : (start : UInt32) → (lengths : List UInt32) → List UInt32
  | _, [] => []
  | start, n :: ns => (start + n) :: endsFrom (start + n) ns

def lastEnd (ends : List UInt32) : UInt32 := ends.getLastD 0

/-- The place of the first part that is not over at a beat. Past all parts it is their number. It
stands for a search by halves, which finds it where the ends rise. Ends that fall, because their sum
has wrapped around, are not what such a search is for, and what it would answer there is not
specified. -/
def placeAt (ends : List UInt32) (beat : Float) : Nat := ends.findIdx fun e => !isOver e beat

def startAt (ends : List UInt32) (place : Nat) : UInt32 :=
  if place = 0 then 0 else ends.getD (place - 1) 0

structure Segment where
  sheet : SheetId
  commands : List Command
deriving DecidableEq, BEq, Repr

namespace Segment

def ends (g : Segment) : List UInt32 := endsFrom 0 (g.commands.map Command.duration)

def beats (g : Segment) : UInt32 := lastEnd g.ends

def placeAt (g : Segment) (beat : Float) : Nat :=
  -- past the last command the last one is meant
  min (MarchingDrill.placeAt g.ends beat) (g.commands.length - 1)

def poseAt? (g : Segment) (beat : Float) : Option Pose :=
  let place := g.placeAt beat
  g.commands[place]?.bind fun c => c.poseAt? (beat - (startAt g.ends place).toFloat)

def captions (g : Segment) : List String := g.commands.map Command.caption

end Segment

structure Stay where
  segment : Segment
  beats : UInt32
deriving DecidableEq, BEq, Repr

structure Track where
  dot : DotId
  stays : List Stay
deriving DecidableEq, BEq, Repr

namespace Track

def ends (t : Track) : List UInt32 := endsFrom 0 (t.stays.map Stay.beats)

def total (t : Track) : UInt32 := lastEnd t.ends

def segments (t : Track) : List Segment := t.stays.map Stay.segment

def segment? (t : Track) (sheet : SheetId) : Option Segment := t.segments.find? (·.sheet = sheet)

def placeAt (t : Track) (beat : Float) : Nat :=
  let place := MarchingDrill.placeAt t.ends beat
  -- sheets without beats are never meant
  place + ((t.stays.drop place).takeWhile (·.beats = 0)).length

def poseAt? (t : Track) (beat : Float) : Option Pose :=
  if beat.isNaN || beat < 0 || t.total.toFloat + beatSlack < beat then none
  else
    let place := t.placeAt beat
    t.stays[place]?.bind fun s => s.segment.poseAt? (beat - (startAt t.ends place).toFloat)

end Track

end MarchingDrill
