import MarchingDrill.Continuity.Basic
import MarchingDrill.Motion.Document

/-!
Continuities in documents. The members of the tag, the name of the kind and the members of the kind
stand side by side in one object.
-/

namespace MarchingDrill

open Json

def DotId.toJson (d : DotId) : Json := text d.name

def DotId.ofJson? (v : Json) : Option DotId := v.text?.map DotId.mk

namespace LineUp

def toJson (order : LineUp) : Json := .arr (order.map DotId.toJson)

def ofJson? (v : Json) : Option LineUp := v.list? fun _ => DotId.ofJson?

end LineUp

/-- A supply of names for the continuities that a document leaves without one, each by its place in
the document: the places on all levels on the way to it, outermost first. -/
abbrev Names := List Nat → String

def Names.inside (names : Names) (place : Nat) : Names := fun way => names (place :: way)

def Names.same (name : String) : Names := fun _ => name

namespace Tag

def toMembers (tag : Tag) : Fields :=
  [("id", text tag.id), ("dotType", text tag.symbol.name)] ++
    optionalMember "beatsPerStep" word32 tag.beatsPerStep ++
    optionalMember "orientation" (fun f : Facing => text f.name) tag.facing

def fields : List String := ["id", "dotType", "beatsPerStep", "orientation"]

def ofFields? (unnamed : String) (payload : Json → Bool) (fs : Fields) : Option Tag := do
  return {
    id := ← fs.withDefault "id" unnamed text?
    symbol := ← fs.withDefault "dotType" .plain (choice? payload Symbol.ofName?)
    beatsPerStep := ← fs.optional "beatsPerStep" word32?
    facing := ← fs.optional "orientation" (choice? payload Facing.ofName?) }

end Tag

namespace Figure

def toMembers : Figure → Fields
  | stop markTime duration =>
    [("type", text "stop"), ("isMarkTime", .bool markTime)] ++
      optionalMember "duration" word32 duration
  | forward steps direction =>
    [("type", text "fm"), ("steps", word32 steps), ("direction", text direction.name)]
  | even => [("type", text "even")]
  | fountain along ending =>
    [("type", text "fountain"), ("along", text along.label), ("end", text ending.label)]
  | diagonal along ending =>
    [("type", text "diagonal"), ("along", text along.label), ("end", text ending.label)]
  | grapevine ending => [("type", text "gv"), ("end", text ending.label)]
  | gate degrees clockwise center =>
    [("type", text "gate"), ("degrees", float degrees), ("clockwise", .bool clockwise),
      ("reference", center.toJson)]
  | counterMarch order duration =>
    [("type", text "cm"), ("order", order.toJson)] ++ optionalMember "duration" word32 duration
  | followLeader order path =>
    [("type", text "ftl"), ("order", order.toJson), ("path", .arr (path.map Spot.toJson))]

def fieldsOf? : String → Option (List String)
  | "stop" => some ["isMarkTime", "duration"]
  | "fm" => some ["steps", "direction"]
  | "even" => some []
  | "fountain" | "diagonal" => some ["along", "end"]
  | "gv" => some ["end"]
  | "gate" => some ["degrees", "clockwise", "reference"]
  | "cm" => some ["order", "duration"]
  | "ftl" => some ["order", "path"]
  | _ => none

def ending? (fs : Fields) : Option Ending :=
  fs.withDefault "end" .markTime (choice? isNothing Ending.ofLabel?)

def ofFields? (kind : String) (fs : Fields) : Option Figure :=
  match kind with
  | "stop" => do
    return stop (← fs.withDefault "isMarkTime" true bool?) (← fs.optional "duration" word32?)
  | "fm" => do
    return forward (← fs.required "steps" word32?)
      (← fs.required "direction" (choice? isNothing Cardinal.ofName?))
  | "even" => some even
  | "fountain" => do
    return fountain
      (← fs.withDefault "along" .eastWestFirst (choice? isNothing GridOrder.ofLabel?))
      (← ending? fs)
  | "diagonal" => do
    return diagonal
      (← fs.withDefault "along" .diagonalFirst (choice? isNothing DiagonalOrder.ofLabel?))
      (← ending? fs)
  | "gv" => do return grapevine (← ending? fs)
  | "gate" => do
    return gate (← fs.required "degrees" float?) (← fs.withDefault "clockwise" true bool?)
      (← fs.required "reference" Spot.ofJson?)
  | "cm" => do
    return counterMarch (← fs.required "order" LineUp.ofJson?) (← fs.optional "duration" word32?)
  | "ftl" => do
    return followLeader (← fs.required "order" LineUp.ofJson?)
      (← fs.withDefault "path" [] (list? fun _ => Spot.ofJson?))
  | _ => none

end Figure

namespace Continuity

mutual

def toMembers : Continuity → Fields
  | figure tag f => tag.toMembers ++ f.toMembers
  | twoStep tag order markTime parts =>
    tag.toMembers ++ [("type", text "two"), ("order", order.toJson),
      ("continuities", .arr (toJsonAll parts)), ("isMarkTime", .bool markTime)]

def toJsonAll : List Continuity → List Json
  | [] => []
  | c :: cs => record (toMembers c) :: toJsonAll cs

end

def toJson (c : Continuity) : Json := record c.toMembers

/-- The kinds of continuities. A document may also give a kind by its place in this list. -/
def kinds : List String :=
  ["stop", "fm", "even", "fountain", "diagonal", "gv", "gate", "cm", "ftl", "two"]

def kind? : Json → Option String
  | .str t => t
  | .num n => n.count?.bind (kinds[·]?)
  | _ => none

def ofMembers? (unnamed : String) (payload : Json → Bool) (parts : Nat → Json → Option Continuity)
    (members : List (Option String × Json)) : Option Continuity := do
  let kind ← (← membersNamed? ["type"] members).required "type" kind?
  if kind = "two" then
    let fs ← membersNamed? (Tag.fields ++ ["order", "continuities", "isMarkTime"]) members
    return twoStep (← Tag.ofFields? unnamed payload fs) (← fs.required "order" LineUp.ofJson?)
      (← fs.withDefault "isMarkTime" true bool?)
      (← fs.withDefault "continuities" [] (list? parts))
  else
    let fs ← membersNamed? (Tag.fields ++ (← Figure.fieldsOf? kind)) members
    return figure (← Tag.ofFields? unnamed payload fs) (← Figure.ofFields? kind fs)

def ofNestedJson? : (fuel : Nat) → Names → Json → Option Continuity
  | fuel + 1, names, .obj members =>
    ofMembers? (names []) isNothing (fun i => ofNestedJson? fuel (names.inside i)) members
  | _, _, _ => none

def ofJson? (names : Names) (room : Nat) (v : Json) : Option Continuity :=
  match v with
  | .obj members =>
    if fitsTagged room v then
      ofMembers? (names []) isNull (fun i => ofNestedJson? room (names.inside i)) members
    else none
  | _ => none

def ofText? (names : Names) (s : String) : Option Continuity :=
  (Json.ofText? s).bind (ofJson? names maxDepth)

end Continuity

end MarchingDrill
