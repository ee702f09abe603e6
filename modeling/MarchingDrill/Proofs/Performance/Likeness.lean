import MarchingDrill.Proofs.Performance.Starts

/-! Likeness: what a dot does on a sheet and what is reported for it depend on the show through a
few lookups only. Shows that agree in these have the same tours. -/

namespace MarchingDrill.Show

structure AlikeOn (s u : Show) (dot : DotId) (sheet : SheetId) : Prop where
  spot : s.spot? sheet dot = u.spot? sheet dot
  next : s.nextSpot? sheet dot = u.nextSpot? sheet dot
  follows : (s.nextSheet? sheet).isSome = (u.nextSheet? sheet).isSome
  beats : s.sheetBeats sheet = u.sheetBeats sheet
  defaults : s.defaults sheet = u.defaults sheet
  run : ∀ cue, Continuity.performAll dot (s.listFor sheet dot) (s.scene sheet) cue =
    Continuity.performAll dot (u.listFor sheet dot) (u.scene sheet) cue

variable {s u : Show} {dot : DotId} {sheet : SheetId}

theorem AlikeOn.performFrom_eq (h : s.AlikeOn u dot sheet) (settings : Settings) (start : Spot) :
    s.performFrom settings dot sheet start = u.performFrom settings dot sheet start := by
  have hdefaults : (s.scene sheet).defaults = (u.scene sheet).defaults := h.defaults
  rw [performFrom, performFrom, h.beats, h.run, h.follows, h.next, hdefaults]

theorem AlikeOn.performSheet_eq (h : s.AlikeOn u dot sheet) (settings : Settings)
    (before : Option Spot) :
    s.performSheet settings dot before sheet = u.performSheet settings dot before sheet := by
  rw [performSheet, performSheet, h.spot]
  simp only [h.performFrom_eq]

theorem performSheets_congr (settings : Settings) {sheets : List SheetId}
    (h : ∀ sheet ∈ sheets, s.AlikeOn u dot sheet) (carried : Option Spot) :
    s.performSheets settings dot carried sheets = u.performSheets settings dot carried sheets := by
  induction sheets generalizing carried with
  | nil => rfl
  | cons sheet sheets ih =>
    rw [List.forall_mem_cons] at h
    rw [performSheets, performSheets, h.1.performSheet_eq, h.1.beats, ih h.2]

theorem spansFrom_congr {sheets : List SheetId}
    (h : ∀ sheet ∈ sheets, s.sheetBeats sheet = u.sheetBeats sheet) (start : UInt32) :
    s.spansFrom start sheets = u.spansFrom start sheets := by
  induction sheets generalizing start with
  | nil => rfl
  | cons sheet sheets ih =>
    rw [List.forall_mem_cons] at h
    rw [spansFrom, spansFrom, h.1, ih h.2]

theorem perform_congr (settings : Settings) (hdots : s.dotIds = u.dotIds)
    (hsheets : s.sheetIds = u.sheetIds)
    (hbeats : ∀ sheet ∈ s.sheetIds, s.sheetBeats sheet = u.sheetBeats sheet)
    (h : ∀ dot ∈ s.dotIds, ∀ sheet ∈ s.sheetIds, s.AlikeOn u dot sheet) :
    s.perform settings = u.perform settings := by
  have htracks : (s.dotIds.map fun dot => s.track settings dot s.sheetIds) =
      u.dotIds.map fun dot => u.track settings dot u.sheetIds := by
    rw [← hdots, ← hsheets]
    refine List.map_congr_left fun dot hdot => ?_
    rw [track, track, performSheets_congr settings (h dot hdot)]
  have hspans : s.spansFrom 0 s.sheetIds = u.spansFrom 0 u.sheetIds := by
    rw [← hsheets, spansFrom_congr hbeats]
  have htotal : s.sheetIds.map s.sheetBeats = u.sheetIds.map u.sheetBeats := by
    rw [← hsheets, List.map_congr_left hbeats]
  simp only [perform, htracks, hspans, htotal]

section Front

variable {settings : Settings}

theorem take_performSheets (k : Nat) (carried : Option Spot) (sheets : List SheetId) :
    (s.performSheets settings dot carried sheets).1.take k =
      (s.performSheets settings dot carried (sheets.take k)).1 := by
  induction sheets generalizing k carried with
  | nil => cases k <;> rfl
  | cons sheet sheets ih =>
    cases k with
    | zero => rfl
    | succ k => exact congrArg (_ :: ·) (ih k _)

variable (s settings dot) in
theorem exists_performSheets_append (carried : Option Spot) (sheets more : List SheetId) :
    ∃ last, (s.performSheets settings dot carried (sheets ++ more)).2 =
      (s.performSheets settings dot carried sheets).2 ++
        (s.performSheets settings dot last more).2 := by
  induction sheets generalizing carried with
  | nil => exact ⟨carried, rfl⟩
  | cons sheet sheets ih =>
    obtain ⟨last, hlast⟩ := ih (s.performSheet settings dot carried sheet).carried
    refine ⟨last, ?_⟩
    rw [List.cons_append, performSheets, performSheets]
    exact (congrArg (_ ++ ·) hlast).trans (List.append_assoc ..).symm

theorem filter_take_performSheets {sheets : List SheetId} (hnodup : sheets.Nodup) (k : Nat)
    (carried : Option Spot) :
    (s.performSheets settings dot carried sheets).2.filter (·.sheet ∈ sheets.take k) =
      (s.performSheets settings dot carried (sheets.take k)).2 := by
  obtain ⟨last, hlast⟩ :=
    exists_performSheets_append s dot settings carried (sheets.take k) (sheets.drop k)
  rw [List.take_append_drop] at hlast
  rw [hlast, List.filter_append, List.filter_eq_self.mpr, List.filter_eq_nil_iff.mpr,
    List.append_nil]
  · intro issue hissue
    rw [decide_eq_true_eq]
    exact fun hfront =>
      List.disjoint_take_drop hnodup (Nat.le_refl k) hfront (dot_sheet_of_mem_issues hissue).2
  · intro issue hissue
    exact decide_eq_true (dot_sheet_of_mem_issues hissue).2

end Front

end MarchingDrill.Show
