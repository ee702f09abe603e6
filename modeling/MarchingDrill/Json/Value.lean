import MarchingDrill.Decimal.Layout

/-!
JSON values as they are spelled: numbers keep their digits and objects all their members in order.
-/

namespace MarchingDrill

open Decimal

/-- A JSON value. A text is `none` when its escapes name surrogates that do not pair up. -/
inductive Json where
  | null
  | bool (b : Bool)
  | num (n : Numeral)
  | str (text : Option String)
  | arr (items : List Json)
  | obj (members : List (Option String × Json))
deriving BEq

namespace Json

def text (s : String) : Json := .str (some s)

def count (n : Nat) : Json := .num (.ofNat n)

/-- A number in document layout. Numbers that are not finite have no spelling and become `null`. -/
def float (x : Float) : Json := (Layout.document.ofFloat? x).elim .null .num

def record (members : List (String × Json)) : Json :=
  .obj (members.map fun m => (some m.1, m.2))

mutual

def depth : Json → Nat
  | .arr items => depthList items + 1
  | .obj members => depthMembers members + 1
  | _ => 0

def depthList : List Json → Nat
  | [] => 0
  | v :: vs => max (depth v) (depthList vs)

def depthMembers : List (Option String × Json) → Nat
  | [] => 0
  | (_, v) :: ms => max (depth v) (depthMembers ms)

end

mutual

def legible : Json → Bool
  | .num n => n.float?.isSome
  | .str text => text.isSome
  | .arr items => legibleList items
  | .obj members => legibleMembers members
  | _ => true

def legibleList : List Json → Bool
  | [] => true
  | v :: vs => legible v && legibleList vs

def legibleMembers : List (Option String × Json) → Bool
  | [] => true
  | (key, v) :: ms => key.isSome && legible v && legibleMembers ms

end

end Json

end MarchingDrill
