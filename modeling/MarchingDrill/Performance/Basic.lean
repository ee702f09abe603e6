import MarchingDrill.Continuity.Passage
import MarchingDrill.Performance.Clash
import MarchingDrill.Performance.Issue
import MarchingDrill.Performance.Settings
import MarchingDrill.Show.Basic

/-!
Performances: the tracks of all dots of a show. A dot starts a sheet where it ended the one before,
unless its continuities failed there.
-/

namespace MarchingDrill

structure Span where
  sheet : SheetId
  start : UInt32
  beats : UInt32
deriving DecidableEq, Repr

structure Performance where
  tracks : List Track
  spans : List Span
  total : UInt32
  issues : List Issue
  detected : OrderedMap SheetId Clashes

structure SheetResult where
  commands : List Command
  issues : List IssueKind
  carried : Option Spot

namespace Show

def closing (d : Defaults) (cue : Cue) : List Command :=
  if cue.beats = 0 then []
  else [.stop (Stop.at cue.spot d.facing.bearing cue.beats d.beatsPerStep false)]

def performFrom (s : Show) (settings : Settings) (dot : DotId) (sheet : SheetId) (start : Spot) :
    SheetResult :=
  let scene := s.scene sheet
  let cue : Cue := ⟨start, s.sheetBeats sheet⟩
  match Continuity.performAll dot (s.listFor sheet dot) scene cue with
  | .error f => ⟨closing scene.defaults cue, [.fault f], none⟩
  | .ok p =>
    let unused :=
      if p.cue.beats ≠ 0 ∧ (s.nextSheet? sheet).isSome then [.unusedBeats p.cue.beats] else []
    let off :=
      match s.nextSpot? sheet dot with
      | none => []
      | some expected =>
        if settings.checkFormation && !p.cue.spot.near expected settings.formationTolerance then
          [.offFormation expected p.cue.spot]
        else []
    let pad := if settings.padUnusedBeats then closing scene.defaults p.cue else []
    ⟨p.commands ++ pad, unused ++ off, some p.cue.spot⟩

def performSheet (s : Show) (settings : Settings) (dot : DotId) (carried : Option Spot)
    (sheet : SheetId) : SheetResult :=
  let own := s.spot? sheet dot
  let missing := if own.isNone then [.notOnSheet] else []
  match carried.or own with
  | none => ⟨[], missing, none⟩
  | some start =>
    let r := s.performFrom settings dot sheet start
    { r with issues := missing ++ r.issues }

def performSheets (s : Show) (settings : Settings) (dot : DotId) :
    (carried : Option Spot) → List SheetId → List Stay × List Issue
  | _, [] => ([], [])
  | carried, sheet :: sheets =>
    let r := s.performSheet settings dot carried sheet
    let (stays, issues) := s.performSheets settings dot r.carried sheets
    (⟨⟨sheet, r.commands⟩, s.sheetBeats sheet⟩ :: stays,
      r.issues.map (Issue.report dot sheet) ++ issues)

def track (s : Show) (settings : Settings) (dot : DotId) (sheets : List SheetId) :
    Track × List Issue :=
  let (stays, issues) := s.performSheets settings dot none sheets
  (⟨dot, stays⟩, issues)

def spansFrom (s : Show) : (start : UInt32) → List SheetId → List Span
  | _, [] => []
  | start, sheet :: sheets =>
    ⟨sheet, start, s.sheetBeats sheet⟩ :: s.spansFrom (start + s.sheetBeats sheet) sheets

end Show

namespace Performance

def span? (p : Performance) (sheet : SheetId) : Option Span := p.spans.find? (·.sheet = sheet)

def track? (p : Performance) (dot : DotId) : Option Track := p.tracks.find? (·.dot = dot)

def poseAt? (p : Performance) (dot : DotId) (beat : Float) : Option Pose :=
  (p.track? dot).bind (·.poseAt? beat)

def posesAt (p : Performance) (beat : Float) : List (DotId × Pose) :=
  p.tracks.filterMap fun t => (t.poseAt? beat).map fun pose => (t.dot, pose)

def segment? (p : Performance) (dot : DotId) (sheet : SheetId) : Option Segment :=
  (p.track? dot).bind (·.segment? sheet)

def commands? (p : Performance) (dot : DotId) (sheet : SheetId) : Option (List Command) :=
  (p.segment? dot sheet).map Segment.commands

def captions (p : Performance) (dot : DotId) (sheet : SheetId) : List String :=
  (p.segment? dot sheet).elim [] Segment.captions

def clashes (p : Performance) (sheet : SheetId) (radius : Float) : Clashes :=
  (p.span? sheet).elim [] fun span => clashesOn p.tracks sheet span.beats radius

def withClashes (p : Performance) (radius : Float) : Performance :=
  { p with detected := .ofList (p.spans.map fun span => (span.sheet, p.clashes span.sheet radius)) }

def errors (p : Performance) : List Issue := p.issues.filter (·.severity = .error)

end Performance

def Show.perform (s : Show) (settings : Settings) : Performance :=
  let results := s.dotIds.map fun dot => s.track settings dot s.sheetIds
  let p : Performance :=
    { tracks := results.map Prod.fst
      spans := s.spansFrom 0 s.sheetIds
      total := (s.sheetIds.map s.sheetBeats).foldr (· + ·) 0
      issues := results.flatMap Prod.snd
      detected := .empty }
  if settings.detectCollisions then p.withClashes settings.collisionRadius else p

end MarchingDrill
