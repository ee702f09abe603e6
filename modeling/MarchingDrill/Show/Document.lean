import MarchingDrill.Continuity.Document
import MarchingDrill.Show.Validity

/-!
Shows in documents. A show that has been read carries the symbols of its lists on all continuities,
its counter is past all sheets, and it is valid.
-/

namespace MarchingDrill

open Json

namespace Dot

def toJson (d : Dot) : Json := record [("id", d.id.toJson), ("label", text d.label)]

def ofJson? (v : Json) : Option Dot := do
  let fs ← v.fields? ["id", "label"]
  return ⟨← fs.required "id" DotId.ofJson?, ← fs.withDefault "label" "" text?⟩

end Dot

namespace Placement

def toJson (p : Placement) : Json :=
  record [("x", float p.spot.x), ("y", float p.spot.y), ("dotType", text p.symbol.name)]

def ofJson? (v : Json) : Option Placement := do
  let fs ← v.fields? ["x", "y", "dotType"]
  return ⟨⟨← fs.required "x" float?, ← fs.required "y" float?⟩,
    ← fs.withDefault "dotType" .plain (choice? isNull Symbol.ofName?)⟩

end Placement

def facing? (v : Json) : Option Facing := v.choice? isNull Facing.ofName?

namespace Sheet

def toMembers (t : Sheet) : Fields :=
  [("id", word32 t.id.number), ("label", text t.label), ("beats", word32 t.beats)] ++
    optionalMember "beatsPerStep" word32 t.beatsPerStep ++
    optionalMember "orientation" (fun f : Facing => text f.name) t.facing ++
    [("positions", record (t.positions.entries.map fun e => (e.1.name, e.2.toJson))),
      ("continuities",
        record (t.continuities.entries.map fun e => (e.1.name, .arr (Continuity.toJsonAll e.2))))]

def toJson (t : Sheet) : Json := record t.toMembers

def fields : List String :=
  ["id", "label", "beats", "beatsPerStep", "orientation", "positions", "continuities"]

def continuityRoom : Nat := maxDepth - 5

def ofJson? (names : Names) (v : Json) : Option Sheet := do
  let fs ← v.fields? fields
  return {
    id := ⟨← fs.required "id" word32?⟩
    label := ← fs.withDefault "label" "" text?
    beats := ← fs.required "beats" word32?
    beatsPerStep := ← fs.optional "beatsPerStep" word32?
    facing := ← fs.optional "orientation" facing?
    positions := ← fs.withDefault "positions" .empty
      (map? (fun name => some ⟨name⟩) fun _ => Placement.ofJson?)
    continuities := ← fs.withDefault "continuities" .empty
      (map? Symbol.ofName? fun i => list? fun j =>
        Continuity.ofJson? ((names.inside i).inside j) continuityRoom) }

end Sheet

namespace Show

def toJson (s : Show) : Json :=
  record [("name", text s.name), ("beatsPerStep", word32 s.beatsPerStep),
    ("orientation", text s.facing.name), ("dots", .arr (s.dots.map Dot.toJson)),
    ("sheets", .arr (s.sheets.map Sheet.toJson))]

def toText (s : Show) : String := s.toJson.toText

def fields : List String := ["name", "beatsPerStep", "orientation", "dots", "sheets"]

def ofJson? (names : Names) (v : Json) : Option Show := do
  let fs ← v.fields? fields
  return {
    name := ← fs.required "name" text?
    beatsPerStep := ← fs.withDefault "beatsPerStep" 1 word32?
    facing := ← fs.withDefault "orientation" .east facing?
    dots := ← fs.withDefault "dots" [] (list? fun _ => Dot.ofJson?)
    sheets := ← fs.withDefault "sheets" [] (list? fun i => Sheet.ofJson? (names.inside i))
    counter := .start }

def retagged (t : Sheet) : Sheet :=
  { t with continuities := t.continuities.map fun symbol list => Continuity.retagAll symbol list }

def normalized (s : Show) : Show :=
  { s with
    sheets := s.sheets.map retagged
    counter := s.sheetIds.foldl SheetCounter.skip .start }

def ofText (names : Names) (doc : String) : Except ShowFault Show := do
  match (Json.ofText? doc).bind (ofJson? names) with
  | none => throw .unreadable
  | some s =>
    s.normalized.validate
    return s.normalized

end Show

end MarchingDrill
