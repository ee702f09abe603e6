/-!
Shortest decimals. A float stands for every real number that rounds to it; among the decimals in
that interval the shortest is chosen, and of several the one nearest to the float's own value.
-/

namespace MarchingDrill.Decimal

inductive TieRule where
  | even
  | up
deriving DecidableEq, Repr

structure Scaled where
  digits : Nat
  power : Int
deriving DecidableEq, Repr

namespace Shortest

/-- What powers of two and of ten leave: `2 ^ q / 10 ^ i` is `up q i / down q i`. -/
def up (q i : Int) : Nat := Nat.pow 2 q.toNat * Nat.pow 10 (-i).toNat

def down (q i : Int) : Nat := Nat.pow 2 (-q).toNat * Nat.pow 10 i.toNat

/-- Four times the distance from a mantissa down to the edge of its interval. Below a power of two
the floats lie twice as close. -/
def lowerGap (m : Nat) (q : Int) : Nat := if m = Nat.pow 2 52 ∧ -1074 < q then 1 else 2

def rounds (m : Nat) (q i : Int) (n : Nat) : Bool :=
  let a := up (q - 2) i
  let x := n * down (q - 2) i
  let low := (4 * m - lowerGap m q) * a
  let high := (4 * m + 2) * a
  -- the ends of the interval round to the float when its mantissa is even
  if m % 2 = 0 then low ≤ x && x ≤ high else low < x && x < high

def floorOn (m : Nat) (q i : Int) : Nat := m * up q i / down q i

def nearerAbove (tie : TieRule) (m : Nat) (q i : Int) : Bool :=
  let f := floorOn m q i
  match compare (2 * (m * up q i)) ((2 * f + 1) * down q i) with
  | .lt => false
  | .gt => true
  | .eq => match tie with
    | .up => true
    | .even => f % 2 == 1

def hit? (tie : TieRule) (m : Nat) (q i : Int) : Option Nat :=
  let f := floorOn m q i
  match 0 < f && rounds m q i f, rounds m q i (f + 1) with
  | true, true => some (if nearerAbove tie m q i then f + 1 else f)
  | true, false => some f
  | false, true => some (f + 1)
  | false, false => none

def search (tie : TieRule) (m : Nat) (q : Int) : (steps : Nat) → (i : Int) → Scaled
  | 0, i => ⟨floorOn m q i, i⟩
  | steps + 1, i => match hit? tie m q i with
    | some n => ⟨n, i⟩
    | none => search tie m q steps (i - 1)

/-- A power of ten above twice `m * 2 ^ q`, by log 2 < 0.30103. -/
def startPower (m : Nat) (q : Int) : Int := (m.log2 + 2 + q) * 30103 / 100000 + 2

end Shortest

/-- The shortest decimal that rounds to `m * 2 ^ q`. Seventeen digits always suffice. -/
def shortest (tie : TieRule) (m : Nat) (q : Int) : Scaled :=
  Shortest.search tie m q 24 (Shortest.startPower m q)

end MarchingDrill.Decimal
