import MarchingDrill.Continuity.Scene
import MarchingDrill.Decimal.Layout

/-!
Issues: what goes wrong for a dot on a sheet. None of them stops a performance.
-/

namespace MarchingDrill

open Decimal

inductive Severity where
  | warning
  | error
deriving DecidableEq, Repr

inductive IssueKind where
  /-- A continuity failed, and the dot holds its spot instead. -/
  | fault (f : Fault)
  /-- The dot has no spot on the sheet. -/
  | notOnSheet
  /-- The continuities ended before the sheet did. -/
  | unusedBeats (beats : UInt32)
  /-- The dot does not end on its spot on the next sheet. -/
  | offFormation (expected actual : Spot)
deriving DecidableEq, BEq, Repr

namespace IssueKind

def severity : IssueKind → Severity
  | fault _ => .error
  | _ => .warning

def message : IssueKind → String
  | fault f => f.message
  | notOnSheet => "dot is not on the sheet"
  | unusedBeats beats => toString beats.toNat ++ " beats left unused"
  | offFormation expected actual =>
    "ends at (" ++ caption actual.x ++ ", " ++ caption actual.y ++ ") instead of (" ++
      caption expected.x ++ ", " ++ caption expected.y ++ ")"

end IssueKind

structure Issue where
  dot : DotId
  sheet : SheetId
  severity : Severity
  kind : IssueKind
deriving DecidableEq, BEq, Repr

def Issue.report (dot : DotId) (sheet : SheetId) (kind : IssueKind) : Issue :=
  ⟨dot, sheet, kind.severity, kind⟩

def Issue.message (i : Issue) : String :=
  "dot " ++ i.dot.name ++ " on sheet " ++ i.sheet.label ++ ": " ++ i.kind.message

structure Diagnostics where
  issues : List Issue
deriving DecidableEq, BEq, Repr

namespace Diagnostics

def empty : Diagnostics := ⟨[]⟩

def report (d : Diagnostics) (dot : DotId) (sheet : SheetId) (kind : IssueKind) : Diagnostics :=
  ⟨d.issues ++ [Issue.report dot sheet kind]⟩

def errors (d : Diagnostics) : List Issue := d.issues.filter (·.severity = .error)

def forDot (d : Diagnostics) (dot : DotId) : List Issue := d.issues.filter (·.dot = dot)

end Diagnostics

end MarchingDrill
