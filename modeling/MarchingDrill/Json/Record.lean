import MarchingDrill.Json.Reading
import MarchingDrill.OrderedMap

/-!
Reading values of the domain from JSON: numbers and texts, named choices, lists, maps, and records
given as objects or as arrays of their fields.
-/

namespace MarchingDrill.Json

open Decimal

abbrev Fields := List (String × Json)

def text? : Json → Option String
  | .str t => t
  | _ => none

def bool? : Json → Option Bool
  | .bool b => some b
  | _ => none

def countBelow? (limit : Nat) : Json → Option Nat
  | .num n => n.count?.filter (· < limit)
  | _ => none

def word32 (n : UInt32) : Json := count n.toNat

def word32? (v : Json) : Option UInt32 := (v.countBelow? UInt32.size).map UInt32.ofNat

def float? : Json → Option Float
  | .num n => n.float?
  | _ => none

def list? {α : Type} (read : Nat → Json → Option α) : Json → Option (List α)
  | .arr items => items.zipIdx.mapM fun item => read item.2 item.1
  | _ => none

/-- A map, whose values are read with their places in it. When a key occurs again its last value
counts, in the first place. -/
def map? {κ α : Type} [DecidableEq κ] (key : String → Option κ) (read : Nat → Json → Option α) :
    Json → Option (OrderedMap κ α)
  | .obj members => do
    let entries ← members.zipIdx.mapM fun m => do return (← key (← m.1.1), ← read m.2 m.1.2)
    return OrderedMap.ofList entries
  | _ => none

/-- One of several named choices. It may also be spelled as an object with the name as its only
key, if `payload` admits the member's value. -/
def choice? {α : Type} (payload : Json → Bool) (named : String → Option α) : Json → Option α
  | .str (some name) => named name
  | .obj [(some name, v)] => if payload v then named name else none
  | _ => none

def isNull : Json → Bool
  | .null => true
  | _ => false

def isNothing : Json → Bool
  | .null | .obj [] => true
  | _ => false

def membersNamed? (names : List String) : List (Option String × Json) → Option Fields
  | [] => some []
  | (key, v) :: ms => do
    let name ← key
    let rest ← membersNamed? names ms
    if name ∈ names then
      if (rest.lookup name).isSome then none else return (name, v) :: rest
    else return rest

/-- The fields of a record: the members of an object, where other members are skipped, or the items
of an array in the order of the names, of which the last may be missing. -/
def fields? (names : List String) : Json → Option Fields
  | .obj members => membersNamed? names members
  | .arr items => if items.length ≤ names.length then some (names.zip items) else none
  | _ => none

namespace Fields

variable {α : Type}

def required (fs : Fields) (name : String) (read : Json → Option α) : Option α :=
  (fs.lookup name).bind read

def withDefault (fs : Fields) (name : String) (default : α) (read : Json → Option α) : Option α :=
  match fs.lookup name with
  | none => some default
  | some v => read v

def optional (fs : Fields) (name : String) (read : Json → Option α) : Option (Option α) :=
  match fs.lookup name with
  | none | some .null => some none
  | some v => (read v).map some

end Fields

def optionalMember {α : Type} (name : String) (write : α → Json) : Option α → Fields
  | none => []
  | some a => [(name, write a)]

end MarchingDrill.Json
