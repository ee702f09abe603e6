import MarchingDrill.Roster.Ident

/-!
Line-ups: orders of dots that users set by hand.
-/

namespace MarchingDrill

abbrev LineUp := List DotId

namespace LineUp

def place? (order : LineUp) (dot : DotId) : Option Nat := order.idxOf? dot

/-- The place of any dot. Dots outside the order come last. -/
def slot (order : LineUp) (dot : DotId) : Nat := order.idxOf dot

def joined (order : LineUp) (dot : DotId) : LineUp :=
  if dot ∈ order then order else order ++ [dot]

end LineUp

end MarchingDrill
