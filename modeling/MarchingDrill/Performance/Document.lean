import MarchingDrill.Continuity.Document
import MarchingDrill.Performance.Basic

/-!
Performances and issues in documents.
-/

namespace MarchingDrill

open Json

def SheetId.toJson (s : SheetId) : Json := word32 s.number

def SheetId.ofJson? (v : Json) : Option SheetId := v.word32?.map SheetId.mk

namespace Severity

def name : Severity → String
  | warning => "warning"
  | error => "error"

def ofName? : String → Option Severity
  | "warning" => some warning
  | "error" => some error
  | _ => none

end Severity

namespace Fault

def toJson : Fault → Json
  | missingSpot dot sheet => record
    [("MissingPosition", record [("dot", dot.toJson), ("sheet", sheet.toJson)])]
  | emptyOrder kind => record [("EmptyOrder", record [("kind", text kind)])]
  | nestedTooDeep limit => record [("NestingTooDeep", record [("limit", count limit)])]

def ofJson? : Json → Option Fault
  | .obj [(some "MissingPosition", v)] => do
    let fs ← v.fields? ["dot", "sheet"]
    return missingSpot (← fs.required "dot" DotId.ofJson?) (← fs.required "sheet" SheetId.ofJson?)
  | .obj [(some "EmptyOrder", v)] => do
    let fs ← v.fields? ["kind"]
    return emptyOrder (← fs.required "kind" text?)
  | .obj [(some "NestingTooDeep", v)] => do
    let fs ← v.fields? ["limit"]
    return nestedTooDeep (← fs.required "limit" (countBelow? UInt64.size))
  | _ => none

end Fault

namespace IssueKind

def toMembers : IssueKind → List (String × Json)
  | fault f => [("kind", text "continuity"), ("error", f.toJson)]
  | notOnSheet => [("kind", text "dotNotInSheet")]
  | unusedBeats beats => [("kind", text "unusedBeats"), ("beats", word32 beats)]
  | offFormation expected actual =>
    [("kind", text "endsOffFormation"), ("expected", expected.toJson), ("actual", actual.toJson)]

def ofTagged? : String × Json → Option IssueKind
  | ("continuity", v) => do
    let fs ← v.fields? ["error"]
    return fault (← fs.required "error" Fault.ofJson?)
  | ("dotNotInSheet", .obj _) | ("dotNotInSheet", .arr []) => some notOnSheet
  | ("unusedBeats", v) => do
    let fs ← v.fields? ["beats"]
    return unusedBeats (← fs.required "beats" word32?)
  | ("endsOffFormation", v) => do
    let fs ← v.fields? ["expected", "actual"]
    return offFormation (← fs.required "expected" Spot.ofJson?)
      (← fs.required "actual" Spot.ofJson?)
  | _ => none

def ofJson? (v : Json) : Option IssueKind := do
  if fitsTagged maxDepth v then ofTagged? (← untag? "kind" v) else none

end IssueKind

namespace Issue

def toJson (i : Issue) : Json :=
  record ([("dot", i.dot.toJson), ("sheet", i.sheet.toJson), ("severity", text i.severity.name)] ++
    i.kind.toMembers)

def ofJson? (v : Json) : Option Issue := do
  match v with
  | .obj members =>
    if !fitsTagged maxDepth v then none
    let fs ← membersNamed? ["dot", "sheet", "severity"] members
    return {
      dot := ← fs.required "dot" DotId.ofJson?
      sheet := ← fs.required "sheet" SheetId.ofJson?
      severity := ← fs.required "severity" (choice? isNull Severity.ofName?)
      kind := ← IssueKind.ofTagged? (← untag? "kind" v) }
  | _ => none

end Issue

namespace Diagnostics

def toJson (d : Diagnostics) : Json := .arr (d.issues.map Issue.toJson)

def toText (d : Diagnostics) : String := d.toJson.toText

def ofText? (s : String) : Option Diagnostics :=
  ((Json.ofText? s).bind (list? fun _ => Issue.ofJson?)).map Diagnostics.mk

end Diagnostics

namespace Segment

def toJson (g : Segment) : Json :=
  record [("sheet", g.sheet.toJson), ("commands", .arr (g.commands.map Command.toJson))]

end Segment

def Pose.toJson (p : Pose) : Json :=
  record [("x", float p.spot.x), ("y", float p.spot.y), ("angle", float p.facing)]

def Span.toJson (s : Span) : Json :=
  record [("sheet", s.sheet.toJson), ("start", word32 s.start), ("beats", word32 s.beats)]

def Clashes.toJson (c : Clashes) : Json :=
  record (c.map fun e => (e.1.name, .arr (e.2.map word32)))

namespace Performance

def toJson (p : Performance) : Json :=
  record ([
    ("dots", record (p.tracks.map fun t =>
      (t.dot.name, record
        [("dot", t.dot.toJson), ("segments", .arr (t.segments.map Segment.toJson))]))),
    ("sheets", .arr (p.spans.map Span.toJson)),
    ("total_beats", word32 p.total),
    ("diagnostics", .arr (p.issues.map Issue.toJson))] ++
    if p.detected.entries.isEmpty then [] else
      [("collisions", record (p.detected.entries.map fun e =>
        (toString e.1.number.toNat, Clashes.toJson e.2)))])

end Performance

end MarchingDrill
