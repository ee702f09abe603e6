/-!
The names of dots and the numbers of sheets.
-/

namespace MarchingDrill

structure DotId where
  name : String
deriving DecidableEq, Repr, Inhabited

structure SheetId where
  number : UInt32
deriving DecidableEq, Repr, Inhabited

def SheetId.label (s : SheetId) : String := "#" ++ toString s.number.toNat

structure SheetCounter where
  next : UInt32
deriving DecidableEq, Repr, Inhabited

namespace SheetCounter

def start : SheetCounter := ⟨0⟩

/-- The next number and the counter behind it. The largest number is followed by zero. -/
def take (c : SheetCounter) : SheetId × SheetCounter := (⟨c.next⟩, ⟨c.next + 1⟩)

def skip (c : SheetCounter) (s : SheetId) : SheetCounter :=
  if c.next ≤ s.number then ⟨s.number + 1⟩ else c

end SheetCounter

end MarchingDrill
