import MarchingDrill.Performance.Basic
import MarchingDrill.Show.Document
import MarchingDrill.Show.Editing

/-!
A player holds a show with its performance and the sheet that is open for editing. Its state is
changed field by field, and what has been changed before a fault stays changed.
-/

namespace MarchingDrill

structure Player where
  settings : Settings
  current : Option Show
  performance : Option Performance
  active : Option SheetId

inductive PlayerFault where
  | notLoaded
  | nothingToLoad
  | loading (f : ShowFault)
  | unknownSheet (sheet : SheetId)
  | reversing (f : ShowFault)
deriving DecidableEq, Repr

def PlayerFault.message : PlayerFault → String
  | notLoaded => "no show loaded"
  | nothingToLoad => "load_show: show_json is null/undefined"
  | loading f => "load_show parse error: " ++ f.message
  | unknownSheet sheet => "unknown sheet " ++ toString sheet.number.toNat
  | reversing f => "reverse_order error: " ++ f.message

/-- What a player does: an answer or a fault, and the state it is left in either way. -/
abbrev Act (α : Type) := ExceptT PlayerFault (StateM Player) α

namespace Player

def fresh (settings : Settings) : Player := ⟨settings, none, none, none⟩

def loaded : Act (Show × Performance) := do
  let p ← get
  match p.current, p.performance with
  | some s, some performance => return (s, performance)
  | _, _ => throw .notLoaded

def recompile : Act Unit :=
  modify fun p => { p with performance := p.current.map (·.perform p.settings) }

def total : Act UInt32 := return (← loaded).2.total

def load (names : Names) (doc : Option String) : Act UInt32 := do
  match doc with
  | none => throw .nothingToLoad
  | some doc =>
    let s ← ofExcept ((Show.ofText names doc).mapError .loading)
    modify fun p => { p with active := s.sheetIds.head? }
    modify fun p => { p with current := some s }
    recompile
    total

def sheets : Act (List SheetId) := return (← loaded).1.sheetIds

def poseAt (dot : DotId) (beat : Float) : Act (Option Pose) :=
  return (← loaded).2.poseAt? dot beat

def posesAt (beat : Float) : Act (List (DotId × Pose)) := return (← loaded).2.posesAt beat

def captions (dot : DotId) (sheet : SheetId) : Act (List String) :=
  return (← loaded).2.captions dot sheet

def commands (dot : DotId) (sheet : SheetId) : Act (Option (List Command)) :=
  return (← loaded).2.commands? dot sheet

def issues : Act (List Issue) := return (← loaded).2.issues

def clashes (sheet : SheetId) (radius : Float) : Act Clashes :=
  return (← loaded).2.clashes sheet radius

def openSheet (sheet : SheetId) : Act Unit := do
  if ((← loaded).1.sheet? sheet).isNone then throw (.unknownSheet sheet)
  modify fun p => { p with active := some sheet }

def reverseOrder (sheet : SheetId) (symbol : String) (index : Nat) : Act Unit := do
  let symbol ← ofExcept ((Symbol.parse symbol).mapError .reversing)
  let some active := (← get).active | throw .notLoaded
  let some s := (← get).current | throw .notLoaded
  let s ← ofExcept
    ((s.editOrder ⟨sheet, symbol, index⟩ active List.reverse).mapError .reversing)
  modify fun p => { p with current := some s }
  recompile

def showText : Act String := return (← loaded).1.toText

inductive Call where
  | load (names : Names) (doc : Option String)
  | total
  | sheets
  | poseAt (dot : DotId) (beat : Float)
  | posesAt (beat : Float)
  | captions (dot : DotId) (sheet : SheetId)
  | commands (dot : DotId) (sheet : SheetId)
  | issues
  | clashes (sheet : SheetId) (radius : Float)
  | openSheet (sheet : SheetId)
  | reverseOrder (sheet : SheetId) (symbol : String) (index : Nat)
  | showText

inductive Answer where
  | done
  | beats (n : UInt32)
  | sheets (ids : List SheetId)
  | pose (p : Option Pose)
  | poses (ps : List (DotId × Pose))
  | captions (texts : List String)
  | commands (cs : Option (List Command))
  | issues (is : List Issue)
  | clashes (cs : Clashes)
  | text (t : String)

def call : Call → Act Answer
  | .load names doc => .beats <$> load names doc
  | .total => .beats <$> total
  | .sheets => .sheets <$> sheets
  | .poseAt dot beat => .pose <$> poseAt dot beat
  | .posesAt beat => .poses <$> posesAt beat
  | .captions dot sheet => .captions <$> captions dot sheet
  | .commands dot sheet => .commands <$> commands dot sheet
  | .issues => .issues <$> issues
  | .clashes sheet radius => .clashes <$> clashes sheet radius
  | .openSheet sheet => do openSheet sheet; return .done
  | .reverseOrder sheet symbol index => do reverseOrder sheet symbol index; return .done
  | .showText => .text <$> showText

def reply (p : Player) (c : Call) : Except PlayerFault Answer := ((call c).run.run p).1

def after (p : Player) (c : Call) : Player := ((call c).run.run p).2

end Player

end MarchingDrill
