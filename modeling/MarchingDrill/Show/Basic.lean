import MarchingDrill.Continuity.Scene
import MarchingDrill.OrderedMap

/-!
Shows: dots, sheets, the formation on each sheet, and the continuities that lead out of it.
-/

namespace MarchingDrill

structure Dot where
  id : DotId
  label : String
deriving DecidableEq, Repr

structure Placement where
  spot : Spot
  symbol : Symbol
deriving DecidableEq, BEq, Repr

structure Sheet where
  id : SheetId
  label : String
  beats : UInt32
  beatsPerStep : Option UInt32
  facing : Option Facing
  positions : OrderedMap DotId Placement
  continuities : OrderedMap Symbol (List Continuity)
deriving BEq

namespace Sheet

def blank (id : SheetId) (label : String) (beats : UInt32) : Sheet :=
  ⟨id, label, beats, none, none, .empty, .empty⟩

def symbols (t : Sheet) : List Symbol := Symbol.distinct (t.positions.values.map Placement.symbol)

def spot? (t : Sheet) (dot : DotId) : Option Spot := (t.positions.get? dot).map Placement.spot

def list (t : Sheet) (symbol : Symbol) : List Continuity := (t.continuities.get? symbol).getD []

def allContinuities (t : Sheet) : List Continuity := t.continuities.values.flatten

end Sheet

structure Show where
  name : String
  beatsPerStep : UInt32
  facing : Facing
  dots : List Dot
  sheets : List Sheet
  counter : SheetCounter

namespace Show

def blank (name : String) : Show := ⟨name, 1, .east, [], [], .start⟩

def dot? (s : Show) (id : DotId) : Option Dot := s.dots.find? (·.id = id)

def sheet? (s : Show) (id : SheetId) : Option Sheet := s.sheets.find? (·.id = id)

def dotIds (s : Show) : List DotId := s.dots.map Dot.id

def sheetIds (s : Show) : List SheetId := s.sheets.map Sheet.id

def sheetBeats (s : Show) (id : SheetId) : UInt32 := (s.sheet? id).elim 0 Sheet.beats

def nextSheet? (s : Show) (id : SheetId) : Option Sheet :=
  (s.sheets.dropWhile fun t => t.id != id)[1]?

def defaults (s : Show) (id : SheetId) : Defaults where
  beatsPerStep := max (((s.sheet? id).bind Sheet.beatsPerStep).getD s.beatsPerStep) 1
  facing := ((s.sheet? id).bind Sheet.facing).getD s.facing

def spot? (s : Show) (id : SheetId) (dot : DotId) : Option Spot :=
  (s.sheet? id).bind (·.spot? dot)

def symbol? (s : Show) (id : SheetId) (dot : DotId) : Option Symbol :=
  (s.sheet? id).bind fun t => (t.positions.get? dot).map Placement.symbol

def nextSpot? (s : Show) (id : SheetId) (dot : DotId) : Option Spot :=
  (s.nextSheet? id).bind fun t => s.spot? t.id dot

def list (s : Show) (id : SheetId) (symbol : Symbol) : List Continuity :=
  (s.sheet? id).elim [] (·.list symbol)

def listFor (s : Show) (id : SheetId) (dot : DotId) : List Continuity :=
  (s.symbol? id dot).elim [] (s.list id)

def scene (s : Show) (id : SheetId) : Scene where
  sheet := id
  here := s.spot? id
  next := s.nextSpot? id
  defaults := s.defaults id
  depth := 0

end Show

end MarchingDrill
