import MarchingDrill.Motion.Document
import MarchingDrill.Performance.Document
import MarchingDrill.Player
import MarchingDrill.Proofs.Continuity.Course
import MarchingDrill.Proofs.Continuity.Conservation
import MarchingDrill.Proofs.Binary64.Arithmetic
import MarchingDrill.Proofs.Performance.Chaining
import MarchingDrill.Proofs.Performance.Gaps
import MarchingDrill.Proofs.Binary64.Unique
import MarchingDrill.Proofs.Continuity.Idle
import MarchingDrill.Proofs.Performance.Row
import MarchingDrill.Proofs.Show.Violations
import MarchingDrill.Proofs.Show.Edits
import MarchingDrill.Proofs.Player.Session
import MarchingDrill.Proofs.Decimal.Spelling
import MarchingDrill.Proofs.Json.Scanning
import MarchingDrill.Proofs.Json.Parsing
import MarchingDrill.Proofs.Json.Records
import MarchingDrill.Proofs.Binary64.Capture
import MarchingDrill.Proofs.Binary64.Scientific
import MarchingDrill.Proofs.Decimal.Search
import MarchingDrill.Proofs.Decimal.Restoring
import MarchingDrill.Proofs.Json.Numbers
import MarchingDrill.Proofs.Continuity.Storage
import MarchingDrill.Proofs.Show.Storage
import MarchingDrill.Proofs.Show.Numbering
import MarchingDrill.Proofs.Show.Reloading
import MarchingDrill.Proofs.Player.Reloading
import MarchingDrill.Proofs.Performance.Reports
import MarchingDrill.Proofs.Performance.Likeness
import MarchingDrill.Proofs.Performance.Foresight
import MarchingDrill.Proofs.Continuity.Faults
import MarchingDrill.Proofs.Continuity.Pace
import MarchingDrill.Proofs.Performance.Inheritance
import MarchingDrill.Proofs.Continuity.Footprint
import MarchingDrill.Proofs.Performance.Bystanders
import MarchingDrill.Show.InPlace
import MarchingDrill.Proofs.Show.InPlace
import MarchingDrill.Proofs.Numeric.Whole
import MarchingDrill.Proofs.Continuity.Consumption
import MarchingDrill.Proofs.Continuity.CounterMarch
import MarchingDrill.Proofs.Continuity.Following
import MarchingDrill.Proofs.Continuity.Regrouping
import MarchingDrill.Proofs.Continuity.LastInLine
import MarchingDrill.Proofs.Performance.Clashes
import MarchingDrill.Proofs.Show.Reordering
import MarchingDrill.Proofs.Performance.Reordering
import MarchingDrill.Proofs.Continuity.Waypoints
import MarchingDrill.Proofs.Motion.Storage
import MarchingDrill.Proofs.Performance.Storage
import MarchingDrill.Proofs.Binary64.Nearness
import MarchingDrill.Proofs.Numeric.Snapping
import MarchingDrill.Proofs.Continuity.Proportion
import MarchingDrill.Proofs.Continuity.ForwardMarch
import MarchingDrill.Proofs.Continuity.Endless
import MarchingDrill.Proofs.Continuity.Outcomes
