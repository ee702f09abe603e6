import MarchingDrill.Continuity.Basic
import MarchingDrill.Motion.Command

/-!
What surrounds a continuity when it is carried out: the cue that the one before it left, the scene
on the sheet, the options in force, and the passage that comes of it or the fault that stops it.
-/

namespace MarchingDrill

structure Cue where
  spot : Spot
  beats : UInt32
deriving DecidableEq, Repr

def less (n k : UInt32) : UInt32 := n - min n k

theorem less_of_le {n k : UInt32} (h : k ≤ n) : less n k = n - k := by
  have hmin : min n k = k :=
    UInt32.le_antisymm Std.min_le_right (Std.le_min_iff.mpr ⟨h, UInt32.le_refl k⟩)
  rw [less, hmin]

def Cue.after (cue : Cue) (c : Command) : Cue := ⟨c.finish, less cue.beats c.duration⟩

structure Passage where
  commands : List Command
  cue : Cue
deriving DecidableEq, Repr

namespace Passage

def rest (cue : Cue) : Passage := ⟨[], cue⟩

def one (cue : Cue) (c : Command) : Passage := ⟨[c], cue.after c⟩

def andThen (p q : Passage) : Passage := ⟨p.commands ++ q.commands, q.cue⟩

def beats (p : Passage) : UInt32 := (p.commands.map Command.duration).foldr (· + ·) 0

end Passage

inductive Fault where
  | missingSpot (dot : DotId) (sheet : SheetId)
  | emptyOrder (kind : String)
  | nestedTooDeep (limit : Nat)
deriving DecidableEq, Repr

def Fault.message : Fault → String
  | missingSpot dot sheet => "dot " ++ dot.name ++ " has no position on sheet " ++ sheet.label
  | emptyOrder kind => kind ++ " continuity has an empty dot order"
  | nestedTooDeep limit => "continuities nested deeper than " ++ toString limit ++ " levels"

structure Defaults where
  beatsPerStep : UInt32
  facing : Facing
deriving DecidableEq, Repr

/-- The options of one continuity. Moves face `asked` if the continuity itself sets a facing, and
their way otherwise. -/
structure Options where
  beatsPerStep : UInt32
  facing : Facing
  asked : Option Float
deriving DecidableEq, Repr

def Tag.options (tag : Tag) (d : Defaults) : Options where
  beatsPerStep := max (tag.beatsPerStep.getD d.beatsPerStep) 1
  facing := tag.facing.getD d.facing
  asked := tag.facing.map Facing.bearing

/-- The surroundings of a continuity: the sheet, where dots stand on it and on the next one, the
defaults, and how many two-steps lie around it. -/
structure Scene where
  sheet : SheetId
  here : DotId → Option Spot
  next : DotId → Option Spot
  defaults : Defaults
  depth : Nat

def maxNesting : Nat := 8

namespace Scene

def nested (scene : Scene) (o : Options) : Except Fault Scene :=
  if maxNesting ≤ scene.depth then .error (.nestedTooDeep maxNesting)
  else .ok { scene with defaults := ⟨o.beatsPerStep, o.facing⟩, depth := scene.depth + 1 }

def spots (scene : Scene) : LineUp → Except Fault (List Spot)
  | [] => .ok []
  | dot :: dots => do
    -- the first dot without a spot is a fault
    match scene.here dot with
    | none => .error (.missingSpot dot scene.sheet)
    | some s => return s :: (← scene.spots dots)

end Scene

end MarchingDrill
