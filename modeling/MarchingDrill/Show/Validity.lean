import MarchingDrill.Show.Basic
import MarchingDrill.Show.Fault

/-!
Checking a show: pace options are at least one, dots and sheets are not repeated, and all dots that
are named exist. The first fault in the order of the document is reported.
-/

namespace MarchingDrill

def firstRepeat? {α : Type} [DecidableEq α] : (seen : List α) → List α → Option α
  | _, [] => none
  | seen, a :: as => if a ∈ seen then some a else firstRepeat? (a :: seen) as

def paceFault? : Option UInt32 → Option ShowFault
  | some 0 => some (.invalidBeatsPerStep 0)
  | _ => none

def Continuity.ownFault? (known : List DotId) (sheet : SheetId) (c : Continuity) :
    Option ShowFault :=
  -- an unknown dot in the order hides a bad pace
  match (c.order?.getD []).find? (· ∉ known) with
  | some dot => some (.unknownDot dot (.order c.label sheet))
  | none => paceFault? c.tag.beatsPerStep

def Sheet.fault? (known : List DotId) (t : Sheet) : Option ShowFault :=
  (paceFault? t.beatsPerStep).or <|
  ((t.positions.keys.find? (· ∉ known)).map fun dot => .unknownDot dot (.positions t.id)).or <|
  (t.allContinuities.flatMap Continuity.walk).findSome? (·.ownFault? known t.id)

def sheetsFault? (known : List DotId) : (seen : List SheetId) → List Sheet → Option ShowFault
  | _, [] => none
  | seen, t :: ts =>
    if t.id ∈ seen then some (.duplicateSheet t.id)
    else (t.fault? known).or (sheetsFault? known (t.id :: seen) ts)

namespace Show

def fault? (s : Show) : Option ShowFault :=
  (paceFault? (some s.beatsPerStep)).or <|
  ((firstRepeat? [] s.dotIds).map .duplicateDot).or <|
  sheetsFault? s.dotIds [] s.sheets

def validate (s : Show) : Except ShowFault Unit :=
  match s.fault? with
  | some fault => .error fault
  | none => .ok ()

end Show

end MarchingDrill
