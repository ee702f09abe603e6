import MarchingDrill.Show.Basic
import MarchingDrill.Show.Fault

/-!
Changing a show. A change that is refused leaves no trace, since it yields no show.
-/

namespace MarchingDrill

def changeSheet (id : SheetId) (f : Sheet → Except ShowFault Sheet) :
    List Sheet → Except ShowFault (List Sheet)
  | [] => .error (.unknownSheet id)
  | t :: ts => do
    if t.id = id then return (← f t) :: ts
    else return t :: (← changeSheet id f ts)

namespace Sheet

def editList (t : Sheet) (symbol : Symbol) (f : List Continuity → List Continuity) : Sheet :=
  { t with continuities := t.continuities.alter symbol fun list => f (list.getD []) }

def continuityAt (t : Sheet) (ref : ContinuityRef) : Except ShowFault Continuity :=
  match (t.list ref.symbol)[ref.index]? with
  | some c => .ok c
  | none => .error (.noSuchContinuity t.id ref)

def setContinuity (t : Sheet) (ref : ContinuityRef) (c : Continuity) : Sheet :=
  t.editList ref.symbol fun list => list.set ref.index c

end Sheet

namespace Show

def onSheet (s : Show) (id : SheetId) (f : Sheet → Except ShowFault Sheet) :
    Except ShowFault Show := do
  return { s with sheets := ← changeSheet id f s.sheets }

def addSheet (s : Show) (label : String) (beats : UInt32) : SheetId × Show :=
  let (id, counter) := s.counter.take
  (id, { s with sheets := s.sheets ++ [.blank id label beats], counter })

def editContinuity (s : Show) (id : SheetId) (ref : ContinuityRef)
    (f : Continuity → Except ShowFault Continuity) : Except ShowFault Show :=
  s.onSheet id fun t => do return t.setContinuity ref (← f (← t.continuityAt ref))

/-- Changes the order that an edit refers to, provided that its sheet is still active. -/
def editOrder (s : Show) (edit : OrderEdit) (active : SheetId) (f : LineUp → LineUp) :
    Except ShowFault Show :=
  match edit.get? active with
  | none => .error (.editExpired edit.sheet active)
  | some ref =>
    s.editContinuity edit.sheet ref fun c =>
      match c.editOrder? f with
      | some c => .ok c
      | none => .error (.notOrdered edit.sheet c.label)

end Show

end MarchingDrill
