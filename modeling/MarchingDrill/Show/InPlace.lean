import MarchingDrill.Show.Editing

/-!
Changing a show in place. What has been changed before a fault stays changed.
-/

namespace MarchingDrill

/-- What is done to something in place: it comes to an answer or a fault, and it leaves the thing
in some state either way. -/
abbrev InPlace (σ α : Type) := ExceptT ShowFault (StateM σ) α

namespace Show

def sheetAt (s : Show) (id : SheetId) : Except ShowFault Sheet :=
  match s.sheet? id with
  | some t => .ok t
  | none => .error (.unknownSheet id)

def setSheet (s : Show) (id : SheetId) (t : Sheet) : Show :=
  { s with sheets := s.sheets.set (s.sheets.findIdx (·.id = id)) t }

end Show

namespace InPlace

variable {σ τ α : Type}

def reply (act : InPlace σ α) (whole : σ) : Except ShowFault α := (act.run.run whole).1

def after (act : InPlace σ α) (whole : σ) : σ := (act.run.run whole).2

def within (part : σ → Except ShowFault τ) (put : τ → σ → σ) (act : InPlace τ α) :
    InPlace σ α := do
  let whole ← get
  let old ← ofExcept (part whole)
  set (put (act.after old) whole)
  ofExcept (act.reply old)

def onSheet (id : SheetId) : InPlace Sheet α → InPlace Show α :=
  within (·.sheetAt id) fun t s => s.setSheet id t

def onList (symbol : Symbol) : InPlace (List Continuity) α → InPlace Sheet α :=
  within (fun t => .ok (t.list symbol)) fun list t => t.editList symbol fun _ => list

def onContinuity (ref : ContinuityRef) : InPlace Continuity α → InPlace Sheet α :=
  within (·.continuityAt ref) fun c t => t.setContinuity ref c

def addDot (id : DotId) (label : String) : InPlace Show Dot := do
  if ((← get).dot? id).isSome then throw (.duplicateDot id)
  modify fun s => { s with dots := s.dots ++ [⟨id, label⟩] }
  return ⟨id, label⟩

def addSheet (label : String) (beats : UInt32) : InPlace Show SheetId :=
  modifyGet fun s => s.addSheet label beats

def place (id : SheetId) (dot : DotId) (spot : Spot) (symbol : Symbol) : InPlace Show Unit := do
  if ((← get).dot? dot).isNone then throw (.unknownDot dot (.sheet id))
  onSheet id (modify fun t => { t with positions := t.positions.insert dot ⟨spot, symbol⟩ })

def addContinuity (id : SheetId) (c : Continuity) : InPlace Show Unit :=
  onSheet id (onList c.tag.symbol (modify fun list => list ++ [c]))

def reorder (id : SheetId) (f : LineUp → LineUp) : InPlace Continuity Unit := do
  let c ← get
  match c.editOrder? f with
  | some c => set c
  | none => throw (.notOrdered id c.label)

def editOrder (edit : OrderEdit) (active : SheetId) (f : LineUp → LineUp) : InPlace Show Unit :=
  match edit.get? active with
  | none => throw (.editExpired edit.sheet active)
  | some ref => onSheet edit.sheet (onContinuity ref (reorder edit.sheet f))

end InPlace

end MarchingDrill
