/-!
Decimal numerals: their parts, their spelling, and the float nearest to their value.
-/

namespace MarchingDrill.Decimal

/-- A numeral without superfluous leading zeros. An empty fraction means that there is no point. -/
structure Numeral where
  negative : Bool
  whole : Nat
  fraction : List (Fin 10)
  exponent : Option Int
deriving DecidableEq, Repr

namespace Numeral

def ofNat (n : Nat) : Numeral := ⟨false, n, [], none⟩

def coefficient (n : Numeral) : Nat :=
  n.fraction.foldl (fun v (d : Fin 10) => 10 * v + d.val) n.whole

def power (n : Numeral) : Int :=
  n.exponent.getD 0 - n.fraction.length

def count? (n : Numeral) : Option Nat :=
  if n.negative || !n.fraction.isEmpty || n.exponent.isSome then none else some n.whole

/-- The float nearest to the size of a numeral, `none` when that is no finite float. It is rounded
once. A faster reader, which rounds the coefficient and then its product with a power of ten, may be
off by one in the last place on a numeral of many digits. A coefficient times a power of ten lies
below ten to the `top`, far outside the floats' range when the first two tests decide. -/
def magnitude? (n : Numeral) : Option Float :=
  let c := n.coefficient
  let top := (Nat.toDigits 10 c).length + n.power
  if c = 0 ∨ top < -330 then some 0
  else if 310 < top then none
  else
    let x := Float.ofScientific c (n.power < 0) n.power.natAbs
    if x.isFinite then some x else none

def float? (n : Numeral) : Option Float :=
  n.magnitude?.map fun x => if n.negative then -x else x

def exponentChars (e : Int) : List Char :=
  'e' :: (if e < 0 then '-' else '+') :: Nat.toDigits 10 e.natAbs

def fractionChars : List (Fin 10) → List Char
  | [] => []
  | ds => '.' :: ds.map fun d : Fin 10 => Nat.digitChar d.val

def chars (n : Numeral) : List Char :=
  (if n.negative then ['-'] else []) ++ Nat.toDigits 10 n.whole ++ fractionChars n.fraction ++
    n.exponent.elim [] exponentChars

def leadingDigits (cs : List Char) : List Char := cs.takeWhile Char.isDigit

def afterDigits (cs : List Char) : List Char := cs.dropWhile Char.isDigit

def whole? (ds : List Char) : Option Nat :=
  match ds with
  | [] => none
  | ['0'] => some 0
  -- a superfluous leading zero
  | '0' :: _ => none
  | ds => some (Nat.ofDigitChars 10 ds 0)

def exponentDigits? (sign : Int) (ds : List Char) : Option (Option Int) :=
  if ds.isEmpty || !ds.all Char.isDigit then none
  else some (some (sign * Nat.ofDigitChars 10 ds 0))

def exponent? (cs : List Char) : Option (Option Int) :=
  match cs with
  | [] => some none
  | c :: cs =>
    if c = 'e' ∨ c = 'E' then
      match cs with
      | '+' :: cs => exponentDigits? 1 cs
      | '-' :: cs => exponentDigits? (-1) cs
      | cs => exponentDigits? 1 cs
    else none

def digit (c : Char) : Fin 10 := Fin.ofNat 10 (c.toNat - '0'.toNat)

def unsigned? (negative : Bool) (cs : List Char) : Option Numeral := do
  let whole ← whole? (leadingDigits cs)
  match afterDigits cs with
  | '.' :: cs =>
    if (leadingDigits cs).isEmpty then none
    else return ⟨negative, whole, (leadingDigits cs).map digit, ← exponent? (afterDigits cs)⟩
  | cs => return ⟨negative, whole, [], ← exponent? cs⟩

def ofChars? (cs : List Char) : Option Numeral :=
  match cs with
  | '-' :: cs => unsigned? true cs
  | cs => unsigned? false cs

end Numeral

end MarchingDrill.Decimal
