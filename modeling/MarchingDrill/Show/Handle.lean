import MarchingDrill.Roster.Ident
import MarchingDrill.Roster.Symbol

/-!
Handles that hold only while the sheet on which they were opened is the active one.
-/

namespace MarchingDrill

structure Handle (α : Type) where
  sheet : SheetId
  value : α
deriving DecidableEq, Repr

namespace Handle

variable {α : Type}

def isActive (h : Handle α) (active : SheetId) : Bool := active = h.sheet

def get? (h : Handle α) (active : SheetId) : Option α :=
  if h.isActive active then some h.value else none

def modify (h : Handle α) (active : SheetId) (f : α → α) : Handle α :=
  if h.isActive active then { h with value := f h.value } else h

end Handle

structure ContinuityRef where
  symbol : Symbol
  index : Nat
deriving DecidableEq, Repr

abbrev OrderEdit := Handle ContinuityRef

end MarchingDrill
