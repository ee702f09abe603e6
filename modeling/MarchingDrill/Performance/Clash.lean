import MarchingDrill.Performance.Track

/-!
Clashes: dots that come too close to each other on a whole beat of a sheet.
-/

namespace MarchingDrill

abbrev Clashes := List (DotId × List UInt32)

def tooClose (radius : Float) : Option Pose → Option Pose → Bool
  | some p, some q => p.spot.near q.spot radius
  | _, _ => false

def clashFlags (radius : Float) : (before : List (Option Pose)) → List (Option Pose) → List Bool
  | _, [] => []
  | before, p :: after =>
    (before.any (tooClose radius · p) || after.any (tooClose radius p ·)) ::
      clashFlags radius (p :: before) after

/-- The whole beats of a sheet, its last one aside. -/
def wholeBeats (beats : UInt32) : List UInt32 := (List.range beats.toNat).map UInt32.ofNat

def posesOn (tracks : List Track) (sheet : SheetId) (beat : UInt32) : List (Option Pose) :=
  tracks.map fun t => (t.segment? sheet).bind (·.poseAt? beat.toFloat)

def beatsAt (rows : List (UInt32 × List Bool)) (place : Nat) : List UInt32 :=
  (rows.filter fun r => r.2.getD place false).map Prod.fst

def clashesOn (tracks : List Track) (sheet : SheetId) (beats : UInt32) (radius : Float) :
    Clashes :=
  let rows := (wholeBeats beats).map fun b => (b, clashFlags radius [] (posesOn tracks sheet b))
  (tracks.zipIdx.map fun (t, i) => (t.dot, beatsAt rows i)).filter fun c => !c.2.isEmpty

end MarchingDrill
