import MarchingDrill.Decimal.Numeral
import MarchingDrill.Decimal.Shortest

/-!
How numbers are written: one layout for documents, with a point or an exponent in every float,
and one for captions, always positional.
-/

namespace MarchingDrill.Decimal

def lastDigits (n : Nat) : (k : Nat) → List (Fin 10)
  | 0 => []
  | k + 1 => ⟨n / Nat.pow 10 k % 10, Nat.mod_lt _ (by decide)⟩ :: lastDigits n k

structure Layout where
  tie : TieRule
  /-- The decimal exponents of a first digit that are written without an exponent. -/
  positional : Int → Bool
  keepsPoint : Bool

/-- Documents keep a point in every positional float and use exponents from 10^16 on and below
10^-5. -/
def Layout.document : Layout := ⟨.even, fun e => -5 ≤ e && e < 16, true⟩

def Layout.caption : Layout := ⟨.up, fun _ => true, false⟩

namespace Layout

def written (layout : Layout) (negative : Bool) (d : Scaled) : Numeral :=
  let whole := d.digits * Nat.pow 10 d.power.toNat / Nat.pow 10 (-d.power).toNat
  let fraction := lastDigits d.digits (-d.power).toNat
  ⟨negative, whole,
    if fraction.isEmpty && layout.keepsPoint then lastDigits 0 1 else fraction, none⟩

def scientific (negative : Bool) (d : Scaled) (k : Nat) : Numeral :=
  ⟨negative, d.digits / Nat.pow 10 k, lastDigits d.digits k, some (d.power + k)⟩

def numeral (layout : Layout) (negative : Bool) (d : Scaled) : Numeral :=
  let k := (Nat.toDigits 10 d.digits).length - 1
  if layout.positional (d.power + k) then layout.written negative d else scientific negative d k

def ofFloat? (layout : Layout) (x : Float) : Option Numeral :=
  match x.toModel.unpack with
  | .finite sign m q _ => some (layout.numeral (sign matches .negative) (shortest layout.tie m q))
  -- zero is written out and keeps its sign
  | .zero sign => some (layout.written (sign matches .negative) ⟨0, 0⟩)
  | .infinity _ | .notANumber => none

end Layout

def caption (x : Float) : String :=
  match Layout.caption.ofFloat? x with
  | some n => String.ofList n.chars
  | none => if x.isNaN then "NaN" else if x < 0 then "-inf" else "inf"

end MarchingDrill.Decimal
