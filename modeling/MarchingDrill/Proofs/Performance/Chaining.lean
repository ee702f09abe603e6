import MarchingDrill.Proofs.Performance.Starts

/-! Chaining: a dot never jumps. On a sheet each command starts where the one before it ended, and a
sheet starts where the one before it ended unless a fault on it was reported. -/

namespace MarchingDrill

/-- Commands of which the first starts at a spot and every other where the one before it ends. -/
def ChainedFrom : Spot → List Command → Prop
  | _, [] => True
  | spot, c :: cs => c.start = spot ∧ ChainedFrom c.finish cs

def destination (spot : Spot) (cs : List Command) : Spot := cs.getLast?.elim spot Command.finish

def Performance.FaultReported (p : Performance) (dot : DotId) (sheet : SheetId) : Prop :=
  ∃ issue ∈ p.issues, issue.dot = dot ∧ issue.sheet = sheet ∧ ∃ f, issue.kind = .fault f

namespace Course

variable {cue last : Cue} {cs : List Command}

theorem chained (h : Course cue cs last) : ChainedFrom cue.spot cs := by
  induction h with
  | rest => trivial
  | next starts _ _ ih => exact ⟨starts, ih⟩

theorem destination_eq (h : Course cue cs last) : destination cue.spot cs = last.spot := by
  induction h with
  | rest => rfl
  | @next cue last c cs _ _ _ ih =>
    rw [← ih, destination, destination, List.getLast?_cons]
    cases cs.getLast? <;> rfl

end Course

namespace Show

variable {s : Show} {settings : Settings} {dot : DotId}

theorem Visit.faultReported_iff (hdot : dot ∈ s.dotIds) {place : Nat} {sheet : SheetId}
    {before : Option Spot} (v : s.Visit settings dot none s.sheetIds place sheet before) :
    (s.perform settings).FaultReported dot sheet ↔
      ∃ f, IssueKind.fault f ∈ (s.performSheet settings dot before sheet).issues := by
  constructor
  · rintro ⟨issue, hmem, hissueDot, hsheet, f, hkind⟩
    rw [perform_issues] at hmem
    obtain ⟨other, -, hmem⟩ := List.mem_flatMap.mp hmem
    have hother : other = dot := (dot_sheet_of_mem_issues hmem).1.symm.trans hissueDot
    rw [hother] at hmem
    obtain ⟨kind, hin, rfl⟩ := (v.reports issue).mp ⟨hmem, hsheet⟩
    exact ⟨f, hkind ▸ hin⟩
  · rintro ⟨f, hf⟩
    obtain ⟨hmem, hsheet⟩ := (v.reports (Issue.report dot sheet (.fault f))).mpr ⟨_, hf, rfl⟩
    refine ⟨_, ?_, rfl, hsheet, f, rfl⟩
    rw [perform_issues]
    exact List.mem_flatMap.mpr ⟨dot, hdot, hmem⟩

section Outcome

variable {sheet : SheetId} {spot : Spot}

theorem carried_of_clean
    (h : ¬∃ f, IssueKind.fault f ∈ (s.performFrom settings dot sheet spot).issues) :
    (s.performFrom settings dot sheet spot).carried =
      some (destination spot (s.performFrom settings dot sheet spot).commands) := by
  have hend := (performFrom_course s settings dot sheet spot).destination_eq
  cases hrun : Continuity.performAll dot (s.listFor sheet dot) (s.scene sheet)
      ⟨spot, s.sheetBeats sheet⟩ with
  | error f =>
    refine absurd ⟨f, ?_⟩ h
    rw [performFrom_of_error hrun]
    exact List.mem_singleton_self _
  | ok p =>
    obtain ⟨issues, -, hresult⟩ := performFrom_of_ok settings hrun
    rw [hrun] at hend
    rw [hend, hresult]
    by_cases hpad : settings.padUnusedBeats = true <;> simp [hpad]

theorem performFrom_of_fault
    (h : ∃ f, IssueKind.fault f ∈ (s.performFrom settings dot sheet spot).issues) :
    (s.performFrom settings dot sheet spot).commands =
        closing (s.defaults sheet) ⟨spot, s.sheetBeats sheet⟩ ∧
      (s.performFrom settings dot sheet spot).carried = none := by
  obtain ⟨f, hf⟩ := h
  cases hrun : Continuity.performAll dot (s.listFor sheet dot) (s.scene sheet)
      ⟨spot, s.sheetBeats sheet⟩ with
  | error e =>
    rw [performFrom_of_error hrun]
    exact ⟨rfl, rfl⟩
  | ok p =>
    obtain ⟨issues, hnone, hresult⟩ := performFrom_of_ok settings hrun
    rw [hresult] at hf
    exact absurd hf (hnone f)

end Outcome

/-- A dot never jumps. On each sheet its commands form a chain from its start. Without a reported
fault the next sheet starts where the chain ends. A fault leaves one closing stop for the sheet, and
the dot starts the next sheet on its own spot there, if it has one. -/
theorem dots_never_jump {names : Names} {doc : String} {s : Show} (settings : Settings)
    (hread : ofText names doc = .ok s) {dot : DotId} (hdot : dot ∈ s.dotIds) :
    let p := s.perform settings
    let starts := s.starts settings dot none s.sheetIds
    ∃ track, p.track? dot = some track ∧
      (∀ t, s.sheets[0]? = some t → starts[0]? = some (t.spot? dot)) ∧
      ∀ (i : Nat) (t : Sheet), s.sheets[i]? = some t →
        ∃ start g, starts[i]? = some start ∧ track.segments[i]? = some g ∧ g.sheet = t.id ∧
          (start = none → g.commands = []) ∧
          ∀ spot, start = some spot →
            ChainedFrom spot g.commands ∧
            (¬p.FaultReported dot t.id → ∀ u, s.sheets[i + 1]? = some u →
              starts[i + 1]? = some (some (destination spot g.commands))) ∧
            (p.FaultReported dot t.id →
              g.commands = (if t.beats = 0 then [] else [.stop (Stop.at spot
                (s.defaults t.id).facing.bearing t.beats (s.defaults t.id).beatsPerStep false)]) ∧
              ∀ u, s.sheets[i + 1]? = some u → starts[i + 1]? = some (u.spot? dot)) := by
  have hvalid := validate_of_ofText hread
  have hsheets := sheetIds_nodup hvalid
  have hown : ∀ (i : Nat) (t : Sheet), s.sheets[i]? = some t → s.spot? t.id dot = t.spot? dot := by
    intro i t ht
    exact spot?_of_mem hsheets (List.mem_of_getElem? ht) dot
  refine ⟨_, track?_perform settings (dotIds_nodup hvalid) hdot, ?_, ?_⟩
  · intro t ht
    cases h : s.sheetIds with
    | nil => cases h ▸ getElem?_sheetIds ht
    | cons first sheets =>
      cases h ▸ getElem?_sheetIds ht
      rw [← hown 0 t ht]
      rfl
  · intro i t ht
    obtain ⟨before, v⟩ := exists_visit settings dot hsheets none (getElem?_sheetIds ht)
    refine ⟨_, _, v.start, by rw [Track.segments, List.getElem?_map, v.stay]; rfl, rfl, ?_, ?_⟩
    · intro hnone
      exact congrArg SheetResult.commands (performSheet_of_none hnone)
    · intro spot hspot
      obtain ⟨hcommands, hcarried, hissues⟩ := performSheet_of_some settings hspot
      have hfault : (s.perform settings).FaultReported dot t.id ↔ ∃ f, IssueKind.fault f ∈
          (s.performFrom settings dot t.id spot).issues := by
        rw [v.faultReported_iff hdot]
        exact exists_congr hissues
      -- from here on only the work from the spot matters
      rw [hcommands, hfault]
      refine ⟨(performFrom_course s settings dot t.id spot).chained, ?_, ?_⟩
      · intro hclean u hu
        rw [v.goesOn u.id (getElem?_sheetIds hu), hcarried, carried_of_clean hclean,
          Option.some_or]
      · intro hfailed
        obtain ⟨hclosing, hnothing⟩ := performFrom_of_fault hfailed
        constructor
        · rw [hclosing, closing, sheetBeats_of_mem hsheets (List.mem_of_getElem? ht)]
        · intro u hu
          rw [v.goesOn u.id (getElem?_sheetIds hu), hcarried, hnothing, Option.none_or,
            hown _ u hu]

theorem dots_never_jump_after_fault : ∃ s, ofText (.same "c") faultThenStopDocument = .ok s ∧
    ∃ track, (s.perform .standard).track? ⟨"A"⟩ = some track ∧
      (track.segments[0]?.map fun g => g.commands.length) = some 1 ∧
      (s.starts .standard ⟨"A"⟩ none s.sheetIds)[1]? = some (some ⟨4, 0⟩) := by
  have hrun : (ofText (.same "c") faultThenStopDocument).toOption.any (fun s => decide
      (⟨"A"⟩ ∈ s.dotIds ∧ (∃ t ∈ s.sheets[0]?, t.id = ⟨0⟩ ∧ t.beats = 8 ∧ (t.spot? ⟨"A"⟩).isSome) ∧
        (∃ u ∈ s.sheets[1]?, u.spot? ⟨"A"⟩ = some ⟨4, 0⟩) ∧
        ∃ issue ∈ (s.perform .standard).issues, issue.dot = ⟨"A"⟩ ∧ issue.sheet = ⟨0⟩ ∧
          issue.kind.severity = .error)) = true := by
    decide +kernel
  obtain ⟨s, hread, hfacts⟩ := exists_ok_of_any hrun
  obtain ⟨hdot, ⟨t, ht, hid, hbeats, hon⟩, ⟨u, hu, hspot⟩, issue, hissue, hissueDot, hsheet,
    herror⟩ := of_decide_eq_true hfacts
  have hfault : (s.perform .standard).FaultReported ⟨"A"⟩ t.id := by
    refine ⟨issue, hissue, hissueDot, hsheet.trans hid.symm, ?_⟩
    cases hkind : issue.kind with
    | fault f => exact ⟨f, rfl⟩
    | _ => simp [hkind, IssueKind.severity] at herror
  obtain ⟨track, htrack, hfirst, hsheets⟩ := dots_never_jump .standard hread hdot
  obtain ⟨start, g, hstart, hg, -, -, hstarted⟩ := hsheets 0 t ht
  obtain ⟨spot, hown⟩ := Option.isSome_iff_exists.mp hon
  have hspotHere : start = some spot := by
    rw [hfirst t ht, hown] at hstart
    exact (Option.some.inj hstart).symm
  obtain ⟨-, -, hfailed⟩ := hstarted spot hspotHere
  obtain ⟨hcommands, hnext⟩ := hfailed hfault
  refine ⟨s, hread, track, htrack, ?_, ?_⟩
  · rw [hg, Option.map_some, hcommands, if_neg (by rw [hbeats]; decide)]
    rfl
  · rw [hnext u hu, hspot]

end Show

end MarchingDrill
