/-!
Whole numbers among the floats: the whole part of a number, the nearest whole number, the snapping
that removes noise around whole numbers, and counts of beats.
-/

namespace MarchingDrill.Numeric

def wholePart (x : Float) : Float :=
  -- from 2^53 on every float is whole already
  if x.abs < 9007199254740992 then
    if x < 0 then -x.abs.toUInt64.toFloat else x.abs.toUInt64.toFloat
  else x

def nearestWhole (x : Float) : Float :=
  let w := wholePart x
  -- a half goes away from zero
  if (x - w).abs < 0.5 then w else if x < 0 then w - 1 else w + 1

def isWhole (x : Float) : Bool :=
  -- infinities and not-a-number have no fraction that is zero
  x - wholePart x == 0

def snapWidth : Float := 1e-9

def snap (x : Float) : Float :=
  let r := nearestWhole x
  -- the sum turns -0 into 0
  if (x - r).abs < snapWidth then r + 0 else x

/-- The least count that is no less than `x`, at most 2^32 - 1. Not-a-number counts as zero. -/
def countUp (x : Float) : UInt32 :=
  let w := wholePart x
  (if w < x then w + 1 else w).toUInt32

def larger (x y : Float) : Float :=
  if x.isNaN then y else if y.isNaN then x else if x < y then y else x

def smaller (x y : Float) : Float :=
  if x.isNaN then y else if y.isNaN then x else if y < x then y else x

def signOf (x : Float) : Float :=
  match x.toModel.unpack with
  | .finite .negative .. | .zero .negative | .infinity .negative => -1
  | .finite .positive .. | .zero .positive | .infinity .positive => 1
  | .notANumber => x

/-- The remainder of `x` by 360 with the sign of `x`, found on the mantissa and so not rounded. -/
def turnRemainder (x : Float) : Float :=
  match x.toModel.unpack with
  | .finite _ m e _ =>
    if x.abs < 360 then x
    else
      let r := if 0 ≤ e then (m * Nat.pow 2 e.toNat % 360).toUInt64.toFloat
        else (m % (360 * Nat.pow 2 (-e).toNat)).toUInt64.toFloat /
          (Nat.pow 2 (-e).toNat).toUInt64.toFloat
      if x < 0 then -r else r
  | .zero _ => x
  | .infinity _ | .notANumber => 0 / 0

end MarchingDrill.Numeric
