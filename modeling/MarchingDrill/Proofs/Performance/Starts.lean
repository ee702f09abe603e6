import MarchingDrill.Performance.Basic
import MarchingDrill.Proofs.Continuity.Course
import MarchingDrill.Proofs.Show.Acceptance

/-! Starts: where a dot begins each sheet. The work on a sheet depends on the sheets before it only
through the spot that they hand on, so a performance can be looked at one visit at a time. -/

namespace MarchingDrill

namespace Show

theorem closing_course (d : Defaults) (cue : Cue) : Course cue (closing d cue) ⟨cue.spot, 0⟩ := by
  rcases cue with ⟨spot, beats⟩
  unfold closing
  split
  · next hzero =>
    cases hzero
    exact .rest _
  · have hleft : less beats beats = 0 := by
      rw [less_of_le (UInt32.le_refl beats), UInt32.sub_self]
    refine .next rfl (UInt32.le_refl beats) ?_
    change Course ⟨spot, less beats beats⟩ [] ⟨spot, 0⟩
    rw [hleft]
    exact .rest _

section Outcome

variable {s : Show} {settings : Settings} {dot : DotId} {sheet : SheetId} {start : Spot}

theorem performFrom_of_error {f : Fault}
    (h : Continuity.performAll dot (s.listFor sheet dot) (s.scene sheet)
      ⟨start, s.sheetBeats sheet⟩ = .error f) :
    s.performFrom settings dot sheet start =
      ⟨closing (s.defaults sheet) ⟨start, s.sheetBeats sheet⟩, [.fault f], none⟩ := by
  simp only [performFrom, h]
  rfl

theorem performFrom_of_ok (settings : Settings) {p : Passage}
    (h : Continuity.performAll dot (s.listFor sheet dot) (s.scene sheet)
      ⟨start, s.sheetBeats sheet⟩ = .ok p) :
    ∃ issues, (∀ f, IssueKind.fault f ∉ issues) ∧ s.performFrom settings dot sheet start =
      ⟨p.commands ++ (if settings.padUnusedBeats then closing (s.defaults sheet) p.cue else []),
        issues, some p.cue.spot⟩ := by
  simp only [performFrom, h]
  refine ⟨_, ?_, rfl⟩
  intro f hf
  rcases List.mem_append.mp hf with hunused | hoff
  · split at hunused
    · cases List.mem_singleton.mp hunused
    · cases hunused
  · split at hoff
    · cases hoff
    · split at hoff
      · cases List.mem_singleton.mp hoff
      · cases hoff

theorem performFrom_course (s : Show) (settings : Settings) (dot : DotId) (sheet : SheetId)
    (start : Spot) :
    Course ⟨start, s.sheetBeats sheet⟩ (s.performFrom settings dot sheet start).commands
      (match Continuity.performAll dot (s.listFor sheet dot) (s.scene sheet)
        ⟨start, s.sheetBeats sheet⟩ with
      | .error _ => ⟨start, 0⟩
      | .ok p => if settings.padUnusedBeats then ⟨p.cue.spot, 0⟩ else p.cue) := by
  cases h : Continuity.performAll dot (s.listFor sheet dot) (s.scene sheet)
      ⟨start, s.sheetBeats sheet⟩ with
  | error f =>
    rw [performFrom_of_error h]
    exact closing_course _ _
  | ok p =>
    obtain ⟨issues, -, hresult⟩ := performFrom_of_ok settings h
    have hcourse : Course ⟨start, s.sheetBeats sheet⟩ p.commands p.cue :=
      Continuity.performAll_from h
    rw [hresult]
    by_cases hpad : settings.padUnusedBeats = true
    · simp only [hpad, if_true]
      exact hcourse.append (closing_course _ _)
    · simp only [hpad, if_false, List.append_nil, Bool.false_eq_true]
      exact hcourse

variable {before : Option Spot}

theorem performSheet_of_none (h : before.or (s.spot? sheet dot) = none) :
    s.performSheet settings dot before sheet = ⟨[], [.notOnSheet], none⟩ := by
  obtain ⟨rfl, hown⟩ := Option.or_eq_none_iff.mp h
  simp only [performSheet, hown, Option.isNone_none, if_true, Option.or_none]

theorem performSheet_of_some (settings : Settings)
    (h : before.or (s.spot? sheet dot) = some start) :
    (s.performSheet settings dot before sheet).commands =
        (s.performFrom settings dot sheet start).commands ∧
      (s.performSheet settings dot before sheet).carried =
        (s.performFrom settings dot sheet start).carried ∧
      ∀ f, IssueKind.fault f ∈ (s.performSheet settings dot before sheet).issues ↔
        .fault f ∈ (s.performFrom settings dot sheet start).issues := by
  simp only [performSheet, h]
  refine ⟨trivial, trivial, ?_⟩
  intro f
  split <;> simp

end Outcome

section Visits

variable (s : Show) (settings : Settings) (dot : DotId)

/-- Where a dot starts each of the given sheets, if it does. It comes to the first one from the spot
where the sheet before left it, if any. -/
def starts : (carried : Option Spot) → List SheetId → List (Option Spot)
  | _, [] => []
  | carried, sheet :: sheets =>
    carried.or (s.spot? sheet dot) ::
      starts (s.performSheet settings dot carried sheet).carried sheets

/-- What the tour of the given sheets shows of the sheet at a place, to which the dot comes from the
spot `before`. -/
structure Visit (carried : Option Spot) (sheets : List SheetId) (place : Nat) (sheet : SheetId)
    (before : Option Spot) : Prop where
  start : (s.starts settings dot carried sheets)[place]? = some (before.or (s.spot? sheet dot))
  stay : (s.performSheets settings dot carried sheets).1[place]? =
    some ⟨⟨sheet, (s.performSheet settings dot before sheet).commands⟩, s.sheetBeats sheet⟩
  goesOn : ∀ next, sheets[place + 1]? = some next →
    (s.starts settings dot carried sheets)[place + 1]? =
      some ((s.performSheet settings dot before sheet).carried.or (s.spot? next dot))
  report : (s.performSheets settings dot carried sheets).2.filter (·.sheet = sheet) =
    (s.performSheet settings dot before sheet).issues.map (Issue.report dot sheet)

variable {s settings dot}

theorem dot_sheet_of_mem_issues {carried : Option Spot} {sheets : List SheetId} {issue : Issue}
    (h : issue ∈ (s.performSheets settings dot carried sheets).2) :
    issue.dot = dot ∧ issue.sheet ∈ sheets := by
  induction sheets generalizing carried with
  | nil => cases h
  | cons sheet sheets ih =>
    rcases List.mem_append.mp h with hhere | hlater
    · obtain ⟨kind, -, rfl⟩ := List.mem_map.mp hhere
      exact ⟨rfl, List.mem_cons_self⟩
    · obtain ⟨hdot, hsheet⟩ := ih hlater
      exact ⟨hdot, List.mem_cons_of_mem _ hsheet⟩

theorem Visit.reports {carried : Option Spot} {sheets : List SheetId} {place : Nat}
    {sheet : SheetId} {before : Option Spot}
    (v : s.Visit settings dot carried sheets place sheet before) (issue : Issue) :
    issue ∈ (s.performSheets settings dot carried sheets).2 ∧
      issue.sheet = sheet ↔
        ∃ kind ∈ (s.performSheet settings dot before sheet).issues,
          issue = Issue.report dot sheet kind := by
  have hmem := congrArg (issue ∈ ·) v.report
  simp only [List.mem_filter, decide_eq_true_eq, List.mem_map] at hmem
  rw [hmem]
  exact exists_congr fun kind => and_congr_right fun _ => eq_comm

variable (settings dot) in
theorem filter_performSheets_cons (carried : Option Spot) {first : SheetId} {sheets : List SheetId}
    (hfirst : first ∉ sheets) (sheet : SheetId) :
    (s.performSheets settings dot carried (first :: sheets)).2.filter (·.sheet = sheet) =
      if sheet = first then
        (s.performSheet settings dot carried first).issues.map (Issue.report dot first)
      else (s.performSheets settings dot
        (s.performSheet settings dot carried first).carried sheets).2.filter (·.sheet = sheet) := by
  change List.filter _ (List.map _ _ ++ _) = _
  rw [List.filter_append]
  split
  · next heq =>
    -- no later sheet has this number
    rw [List.filter_eq_self.mpr, List.filter_eq_nil_iff.mpr, List.append_nil]
    · intro issue hissue
      have hlater := (dot_sheet_of_mem_issues hissue).2
      rw [decide_eq_true_eq]
      rintro hsame
      exact hfirst (heq ▸ hsame ▸ hlater)
    · intro issue hissue
      obtain ⟨kind, -, rfl⟩ := List.mem_map.mp hissue
      exact decide_eq_true heq.symm
  · next hne =>
    rw [List.filter_eq_nil_iff.mpr, List.nil_append]
    intro issue hissue
    obtain ⟨kind, -, rfl⟩ := List.mem_map.mp hissue
    rw [decide_eq_true_eq]
    exact fun hsame => hne hsame.symm

variable (settings dot) in
theorem exists_visit {sheets : List SheetId} (hnodup : sheets.Nodup) (carried : Option Spot)
    {place : Nat} {sheet : SheetId} (h : sheets[place]? = some sheet) :
    ∃ before, s.Visit settings dot carried sheets place sheet before := by
  induction sheets generalizing carried place with
  | nil => cases h
  | cons first sheets ih =>
    obtain ⟨hfirst, hnodup⟩ := List.nodup_cons.mp hnodup
    have hfilter := filter_performSheets_cons (s := s) settings dot carried hfirst sheet
    cases place with
    | zero =>
      cases h
      refine ⟨carried, rfl, rfl, ?_, hfilter.trans (if_pos rfl)⟩
      intro next hnext
      cases sheets with
      | nil => cases hnext
      | cons second sheets =>
        cases hnext
        rfl
    | succ place =>
      have hmem : sheet ∈ sheets := List.mem_of_getElem? h
      obtain ⟨before, v⟩ := ih hnodup (s.performSheet settings dot carried first).carried h
      have hne : sheet ≠ first := fun heq => hfirst (heq ▸ hmem)
      exact ⟨before, v.start, v.stay, v.goesOn, (hfilter.trans (if_neg hne)).trans v.report⟩

end Visits

section Perform

variable (s : Show) (settings : Settings)

theorem perform_tracks : (s.perform settings).tracks =
    s.dotIds.map fun dot => ⟨dot, (s.performSheets settings dot none s.sheetIds).1⟩ := by
  unfold perform
  split <;> exact List.map_map

theorem map_dot_perform :
    (s.perform settings).tracks.map Track.dot = s.dotIds := by
  rw [perform_tracks, List.map_map]
  exact List.map_id _

theorem perform_spans : (s.perform settings).spans = s.spansFrom 0 s.sheetIds := by
  unfold perform
  split <;> rfl

theorem perform_total : (s.perform settings).total = (s.sheetIds.map s.sheetBeats).sum := by
  unfold perform
  split <;> rfl

theorem perform_issues : (s.perform settings).issues =
    s.dotIds.flatMap fun dot => (s.performSheets settings dot none s.sheetIds).2 := by
  unfold perform
  split <;> exact List.flatMap_map ..

theorem track?_perform_eq (dot : DotId) :
    (s.perform settings).track? dot = (s.dotIds.find? (· = dot)).map fun d =>
      ⟨d, (s.performSheets settings d none s.sheetIds).1⟩ := by
  rw [Performance.track?, perform_tracks, List.find?_map]
  rfl

variable {s}

theorem track?_perform (hnodup : s.dotIds.Nodup) {dot : DotId} (hdot : dot ∈ s.dotIds) :
    (s.perform settings).track? dot =
      some ⟨dot, (s.performSheets settings dot none s.sheetIds).1⟩ := by
  refine find?_key_of_mem Track.dot (map_dot_perform s settings ▸ hnodup) (a := ⟨dot, _⟩) ?_
  rw [perform_tracks]
  exact List.mem_map.mpr ⟨dot, hdot, rfl⟩

end Perform

end Show

/-- Two dots on two sheets. The continuities of the first dot fail on the first sheet, where the
second dot has no spot. -/
def faultThenStopDocument : String :=
  "[\"u\",1,\"east\",[[\"A\"],[\"B\"]],[[0,\"\",8,null,null,\x7b\"A\":[0,0]\x7d," ++
    "\x7b\"plain\":[\x7b\"type\":\"ftl\",\"order\":[]\x7d]\x7d]," ++
    "[1,\"\",4,null,null,\x7b\"A\":[4,0],\"B\":[0,4]\x7d," ++
    "\x7b\"plain\":[\x7b\"type\":\"stop\",\"duration\":1\x7d]\x7d]]]"

end MarchingDrill
