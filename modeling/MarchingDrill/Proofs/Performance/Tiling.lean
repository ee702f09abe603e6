import MarchingDrill.Proofs.Performance.Ends
import MarchingDrill.Proofs.Performance.Starts

/-! Tiling: the sheets of a show lie end to end on its beats, for the show as for every dot, and a
dot that has a start fills its sheet as far as the settings want it to. -/

namespace MarchingDrill

theorem Course.segment_beats {cue last : Cue} {cs : List Command} (h : Course cue cs last)
    (sheet : SheetId) :
    last.beats ≤ cue.beats ∧ (Segment.mk sheet cs).beats = cue.beats - last.beats := by
  have hadd : totalBeats cs + last.beats.toNat = cue.beats.toNat := h.totalBeats_add
  have hle : last.beats ≤ cue.beats := UInt32.le_iff_toNat_le.mpr (by omega)
  refine ⟨hle, UInt32.toNat_inj.mp ?_⟩
  rw [Segment.beats_eq_sum, toNat_sum h.exactSum_lt, UInt32.toNat_sub_of_le _ _ hle]
  exact Nat.eq_sub_of_add_eq hadd

namespace Show

theorem map_sheet_spansFrom (s : Show) (start : UInt32) (sheets : List SheetId) :
    (s.spansFrom start sheets).map Span.sheet = sheets := by
  induction sheets generalizing start with
  | nil => rfl
  | cons sheet sheets ih => rw [spansFrom, List.map_cons, ih]

theorem map_sheet_perform (s : Show) (settings : Settings) :
    (s.perform settings).spans.map Span.sheet = s.sheetIds := by
  rw [perform_spans, map_sheet_spansFrom]

theorem spansFrom_getElem? (s : Show) {start : UInt32} {sheets : List SheetId}
    (h : start.toNat + exactSum (sheets.map s.sheetBeats) < 2 ^ 32) {place : Nat}
    {sheet : SheetId} (hplace : sheets[place]? = some sheet) :
    ∃ span, (s.spansFrom start sheets)[place]? = some span ∧ span.sheet = sheet ∧
      span.beats = s.sheetBeats sheet ∧
      span.start.toNat = start.toNat + exactSum ((sheets.map s.sheetBeats).take place) := by
  induction sheets generalizing start place with
  | nil => cases hplace
  | cons first sheets ih =>
    rw [List.map_cons, exactSum_cons] at h
    cases place with
    | zero =>
      cases hplace
      exact ⟨_, rfl, rfl, rfl, rfl⟩
    | succ place =>
      have hadd : (start + s.sheetBeats first).toNat = start.toNat + (s.sheetBeats first).toNat :=
        toNat_add_of_lt (by omega)
      have hrest : (start + s.sheetBeats first).toNat + exactSum (sheets.map s.sheetBeats) <
          2 ^ 32 := by
        omega
      obtain ⟨span, hspan, hsheet, hbeats, hstart⟩ := ih hrest hplace
      refine ⟨span, hspan, hsheet, hbeats, ?_⟩
      rw [hstart, hadd, List.map_cons, List.take_succ_cons, exactSum_cons, Nat.add_assoc]

variable {s : Show} {settings : Settings} {dot : DotId}

theorem length_performSheets (carried : Option Spot) (sheets : List SheetId) :
    (s.performSheets settings dot carried sheets).1.length = sheets.length := by
  induction sheets generalizing carried with
  | nil => rfl
  | cons sheet sheets ih =>
    rw [performSheets, List.length_cons, List.length_cons, ih]

theorem map_sheet_performSheets (carried : Option Spot) (sheets : List SheetId) :
    (s.performSheets settings dot carried sheets).1.map (fun t => t.segment.sheet) = sheets := by
  induction sheets generalizing carried with
  | nil => rfl
  | cons sheet sheets ih => rw [performSheets, List.map_cons, ih]

theorem map_beats_performSheets (carried : Option Spot) (sheets : List SheetId) :
    (s.performSheets settings dot carried sheets).1.map Stay.beats =
      sheets.map s.sheetBeats := by
  induction sheets generalizing carried with
  | nil => rfl
  | cons sheet sheets ih => rw [performSheets, List.map_cons, List.map_cons, ih]

/-- How far a segment fills a sheet. A dot without a start does nothing. With one it takes all beats
of the sheet if it closes or its continuities fail, and else all that its continuities use. -/
def Fills (s : Show) (settings : Settings) (dot : DotId) (t : Sheet) : Option Spot → Segment → Prop
  | none, g => g.commands = []
  | some start, g =>
    match Continuity.performAll dot (s.listFor t.id dot) (s.scene t.id) ⟨start, t.beats⟩ with
    | .error _ => g.beats = t.beats
    | .ok p =>
      p.cue.beats ≤ t.beats ∧
        g.beats = if settings.padUnusedBeats then t.beats else t.beats - p.cue.beats

theorem performFrom_fills (settings : Settings) (dot : DotId) {t : Sheet}
    (hbeats : s.sheetBeats t.id = t.beats) (start : Spot) (sheet : SheetId) :
    s.Fills settings dot t (some start)
      ⟨sheet, (s.performFrom settings dot t.id start).commands⟩ := by
  have hcourse := performFrom_course s settings dot t.id start
  rw [hbeats] at hcourse
  obtain ⟨hle, hused⟩ := hcourse.segment_beats sheet
  cases h : Continuity.performAll dot (s.listFor t.id dot) (s.scene t.id) ⟨start, t.beats⟩ with
  | error f =>
    rw [h] at hused
    simp only [Fills, h]
    exact hused.trans (UInt32.sub_zero t.beats)
  | ok p =>
    have hp : Course ⟨start, t.beats⟩ p.commands p.cue := Continuity.performAll_from h
    rw [h] at hused
    simp only [Fills, h]
    refine ⟨(hp.segment_beats sheet).1, ?_⟩
    rw [hused]
    by_cases hpad : settings.padUnusedBeats = true
    · simp only [hpad, if_true, UInt32.sub_zero]
    · simp only [hpad, if_false, Bool.false_eq_true]

structure TiledBy (s : Show) (spans : List Span) : Prop where
  sheets : spans.map Span.sheet = s.sheetIds
  at_place : ∀ (i : Nat) (t : Sheet), s.sheets[i]? = some t → ∃ span, spans[i]? = some span ∧
    span.sheet = t.id ∧ span.beats = t.beats ∧
    span.start.toNat = exactSum ((s.sheets.map Sheet.beats).take i)

/-- The track of a dot has one segment for each sheet of the show, over the beats of the sheet, and
the dot fills it. -/
structure Covers (s : Show) (settings : Settings) (dot : DotId) (track : Track) : Prop where
  dot_eq : track.dot = dot
  sheets : track.segments.map Segment.sheet = s.sheetIds
  length_ends : track.ends.length = s.sheets.length
  ends_at : ∀ (i : Nat) (t : Sheet), s.sheets[i]? = some t →
    track.ends[i]?.map UInt32.toNat = some (exactSum ((s.sheets.map Sheet.beats).take (i + 1)))
  fills : ∀ (i : Nat) (t : Sheet), s.sheets[i]? = some t →
    ∃ start g, (s.starts settings dot none s.sheetIds)[i]? = some start ∧
      track.segments[i]? = some g ∧ s.Fills settings dot t start g

section Fit

variable (hdistinct : s.sheetIds.Nodup)
  (hfit : exactSum (s.sheets.map Sheet.beats) < 2 ^ 32)
include hdistinct hfit

theorem tiledBy_spans (settings : Settings) : s.TiledBy (s.perform settings).spans where
  sheets := map_sheet_perform s settings
  at_place i t ht := by
    have hbeats := map_sheetBeats hdistinct
    have hown : s.sheetBeats t.id = t.beats :=
      sheetBeats_of_mem hdistinct (List.mem_of_getElem? ht)
    have hlt : (0 : UInt32).toNat + exactSum (s.sheetIds.map s.sheetBeats) < 2 ^ 32 := by
      rw [hbeats]
      simpa using hfit
    obtain ⟨span, hspan, hsheet, hspanBeats, hstart⟩ :=
      s.spansFrom_getElem? hlt (getElem?_sheetIds ht)
    refine ⟨span, ?_, hsheet, hspanBeats.trans hown, ?_⟩
    · rw [perform_spans, hspan]
    · rw [hstart, hbeats, UInt32.toNat_zero, Nat.zero_add]

theorem covers_performSheets (settings : Settings) (dot : DotId) :
    s.Covers settings dot ⟨dot, (s.performSheets settings dot none s.sheetIds).1⟩ where
  dot_eq := rfl
  sheets := by
    rw [Track.segments, List.map_map]
    exact map_sheet_performSheets none s.sheetIds
  length_ends := by
    rw [Track.ends, length_endsFrom, List.length_map, length_performSheets, sheetIds,
      List.length_map]
  ends_at i t ht := by
    have hi : i < (s.sheets.map Sheet.beats).length := by
      rw [List.length_map]
      exact (List.getElem?_eq_some_iff.mp ht).1
    rw [Track.ends, map_beats_performSheets, map_sheetBeats hdistinct,
      toNat_endsFrom (by simpa using hfit) hi, UInt32.toNat_zero, Nat.zero_add]
  fills i t ht := by
    obtain ⟨before, v⟩ := exists_visit settings dot hdistinct none (getElem?_sheetIds ht)
    refine ⟨_, _, v.start, by rw [Track.segments, List.getElem?_map, v.stay]; rfl, ?_⟩
    cases hstart : before.or (s.spot? t.id dot) with
    | none => exact congrArg SheetResult.commands (performSheet_of_none hstart)
    | some start =>
      rw [(performSheet_of_some settings hstart).1]
      have hown := sheetBeats_of_mem hdistinct (List.mem_of_getElem? ht)
      exact performFrom_fills settings dot hown start t.id

end Fit

/-- The sheets of a show that has been read and that fits in 32 bits lie end to end. Every dot has
one segment for each of them, over the beats of the show's own spans, which it fills unless it has
no start there. -/
theorem sheets_tile {names : Names} {doc : String} {s : Show} (settings : Settings)
    (hread : ofText names doc = .ok s)
    (hfit : exactSum (s.sheets.map Sheet.beats) < 2 ^ 32) :
    let p := s.perform settings
    p.tracks.map Track.dot = s.dotIds ∧ s.TiledBy p.spans ∧
    p.total.toNat = exactSum (s.sheets.map Sheet.beats) ∧
    ∀ dot ∈ s.dotIds, ∃ track, p.track? dot = some track ∧ track.total = p.total ∧
      s.Covers settings dot track := by
  have hvalid := validate_of_ofText hread
  have hsheets := sheetIds_nodup hvalid
  refine ⟨map_dot_perform s settings, tiledBy_spans hsheets hfit settings, ?_, ?_⟩
  · rw [perform_total, map_sheetBeats hsheets, toNat_sum hfit]
  · intro dot hdot
    refine ⟨_, track?_perform settings (dotIds_nodup hvalid) hdot, ?_,
      covers_performSheets hsheets hfit settings dot⟩
    rw [Track.total_eq_sum, perform_total, map_beats_performSheets]

theorem sheets_tile_on_twelve : ∃ s, ofText (.same "c") faultThenStopDocument = .ok s ∧
    let p := s.perform { Settings.standard with padUnusedBeats := false }
    p.total.toNat = 12 ∧ ∃ track, p.track? ⟨"A"⟩ = some track ∧ track.total.toNat = 12 ∧
      track.segments.map Segment.sheet = [⟨0⟩, ⟨1⟩] := by
  have hrun : (ofText (.same "c") faultThenStopDocument).toOption.any (fun s => decide
      (s.sheets.map Sheet.beats = [8, 4] ∧ s.dotIds = [⟨"A"⟩, ⟨"B"⟩] ∧
        s.sheetIds = [⟨0⟩, ⟨1⟩])) = true := by
    decide +kernel
  obtain ⟨s, hread, hfacts⟩ := exists_ok_of_any hrun
  obtain ⟨hbeats, hdots, hsheets⟩ := of_decide_eq_true hfacts
  have hsum : exactSum (s.sheets.map Sheet.beats) = 12 := by
    rw [hbeats]
    rfl
  have hfit : exactSum (s.sheets.map Sheet.beats) < 2 ^ 32 := by
    rw [hsum]
    decide
  obtain ⟨-, -, htotal, htracks⟩ :=
    sheets_tile { Settings.standard with padUnusedBeats := false } hread hfit
  obtain ⟨track, htrack, htrackTotal, hcovers⟩ := htracks ⟨"A"⟩ (hdots ▸ List.mem_cons_self)
  refine ⟨s, hread, htotal.trans hsum, track, htrack, ?_, hcovers.sheets.trans hsheets⟩
  rw [htrackTotal, htotal, hsum]

end Show

end MarchingDrill
