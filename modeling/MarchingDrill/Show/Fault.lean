import MarchingDrill.Show.Handle

/-!
What can be wrong with a show or with an attempt to change it.
-/

namespace MarchingDrill

inductive Mention where
  | sheet (id : SheetId)
  | positions (id : SheetId)
  | order (label : String) (id : SheetId)
deriving DecidableEq, Repr

def Mention.text : Mention → String
  | sheet id => "sheet " ++ id.label
  | positions id => "positions of sheet " ++ id.label
  | order label id => label ++ " order on sheet " ++ id.label

inductive ShowFault where
  | unreadable
  | duplicateDot (dot : DotId)
  | duplicateSheet (sheet : SheetId)
  | unknownSymbol (name : String)
  | unknownDot (dot : DotId) (mention : Mention)
  | unknownSheet (sheet : SheetId)
  | invalidBeatsPerStep (value : UInt32)
  | noSuchContinuity (sheet : SheetId) (ref : ContinuityRef)
  | notOrdered (sheet : SheetId) (label : String)
  | editExpired (opened active : SheetId)
deriving DecidableEq, Repr

def ShowFault.message : ShowFault → String
  | unreadable => "show parse error"
  | duplicateDot dot => "dot " ++ dot.name ++ " is defined more than once"
  | duplicateSheet sheet => "sheet " ++ sheet.label ++ " is defined more than once"
  | unknownSymbol name => "unknown dot type '" ++ name ++ "'"
  | unknownDot dot mention => "unknown dot " ++ dot.name ++ " referenced by " ++ mention.text
  | unknownSheet sheet => "unknown sheet " ++ sheet.label
  | invalidBeatsPerStep value =>
    "beats per step must be at least 1 (got " ++ toString value.toNat ++ ")"
  | noSuchContinuity sheet ref =>
    "sheet " ++ sheet.label ++ " has no continuity " ++ toString ref.index ++ " for dot type " ++
      ref.symbol.name
  | notOrdered sheet label =>
    "continuity " ++ label ++ " on sheet " ++ sheet.label ++ " does not keep a dot order"
  | editExpired opened active =>
    "edit was opened on sheet " ++ opened.label ++ " but sheet " ++ active.label ++ " is active"

def Symbol.parse (name : String) : Except ShowFault Symbol :=
  match ofName? name with
  | some s => .ok s
  | none => .error (.unknownSymbol name)

end MarchingDrill
