import MarchingDrill.Proofs.Continuity.Footprint
import MarchingDrill.Proofs.Performance.Likeness
import MarchingDrill.Proofs.Performance.Reports
import MarchingDrill.Proofs.Show.Reloading

/-! Bystanders: dots that another dot does not watch. They may stand elsewhere, do something else or
fail, be listed in another order or not be there at all, without any effect on what that dot
does. -/

namespace MarchingDrill

/-- The second sheet is the first one to the dot. It has the same place there, if any, with
continuities that look the same to it, and the dots that it watches have the same spots. -/
structure Sheet.AlikeFor (dot : DotId) (t u : Sheet) : Prop where
  id : t.id = u.id
  beats : t.beats = u.beats
  beatsPerStep : t.beatsPerStep = u.beatsPerStep
  facing : t.facing = u.facing
  placement : t.positions.get? dot = u.positions.get? dot
  continuities : ∀ p, t.positions.get? dot = some p →
    List.Forall₂ (Continuity.AlikeFor dot) (t.list p.symbol) (u.list p.symbol)
  spots : ∀ p, t.positions.get? dot = some p →
    ∀ other ∈ Continuity.watchedAll (t.list p.symbol), t.spot? other = u.spot? other

structure Show.AlikeFor (dot : DotId) (s u : Show) : Prop where
  beatsPerStep : s.beatsPerStep = u.beatsPerStep
  facing : s.facing = u.facing
  sheets : List.Forall₂ (Sheet.AlikeFor dot) s.sheets u.sheets

theorem Sheet.AlikeFor.spot?_eq {dot : DotId} {t u : Sheet} (h : t.AlikeFor dot u) :
    t.spot? dot = u.spot? dot := by
  rw [spot?, spot?, h.placement]

namespace Show

section Alike

variable {dot : DotId} {s u : Show}

theorem AlikeFor.sheetIds_eq (h : s.AlikeFor dot u) : s.sheetIds = u.sheetIds := by
  have hids : List.Forall₂ (fun t v : Sheet => t.id = v.id) s.sheets u.sheets :=
    h.sheets.imp fun _ _ halike => halike.id
  rw [sheetIds, sheetIds, ← List.forall₂_eq_eq_eq, List.forall₂_map_left_iff,
    List.forall₂_map_right_iff]
  exact hids

theorem AlikeFor.exists_getElem? (h : s.AlikeFor dot u) {i : Nat} {t : Sheet}
    (ht : s.sheets[i]? = some t) : ∃ v, u.sheets[i]? = some v ∧ t.AlikeFor dot v := by
  obtain ⟨hi, rfl⟩ := List.getElem?_eq_some_iff.mp ht
  have hi' : i < u.sheets.length := h.sheets.length_eq ▸ hi
  exact ⟨u.sheets[i], List.getElem?_eq_getElem hi', h.sheets.get hi hi'⟩

theorem AlikeFor.next (h : s.AlikeFor dot u) (i : Nat) :
    s.sheets[i]?.isSome = u.sheets[i]?.isSome ∧
      s.sheets[i]?.bind (·.spot? dot) = u.sheets[i]?.bind (·.spot? dot) := by
  cases ht : s.sheets[i]? with
  | none =>
    have hu : u.sheets[i]? = none := by
      rw [List.getElem?_eq_none_iff, ← h.sheets.length_eq, ← List.getElem?_eq_none_iff, ht]
    rw [hu]
    exact ⟨rfl, rfl⟩
  | some t =>
    obtain ⟨v, hv, halike⟩ := h.exists_getElem? ht
    rw [hv]
    exact ⟨rfl, halike.spot?_eq⟩

theorem AlikeFor.alikeOn (h : s.AlikeFor dot u) (hs : s.sheetIds.Nodup) (hu : u.sheetIds.Nodup)
    {i : Nat} {t : Sheet} (ht : s.sheets[i]? = some t) : s.AlikeOn u dot t.id := by
  obtain ⟨v, hv, halike⟩ := h.exists_getElem? ht
  have hmem := List.mem_of_getElem? ht
  have hmem' := List.mem_of_getElem? hv
  have hspots : s.spot? t.id = t.spot? := funext (spot?_of_mem hs hmem)
  have hspots' : u.spot? t.id = v.spot? := by
    rw [halike.id]
    exact funext (spot?_of_mem hu hmem')
  have hnext : s.nextSpot? t.id dot = u.nextSpot? t.id dot := by
    rw [nextSpot?_of_getElem? hs ht, (h.next (i + 1)).2, halike.id, nextSpot?_of_getElem? hu hv]
  have hdefaults : s.defaults t.id = u.defaults t.id := by
    rw [defaults, defaults, sheet?_of_mem hs hmem, halike.id, sheet?_of_mem hu hmem',
      Option.bind_some, Option.bind_some, Option.bind_some, Option.bind_some, halike.beatsPerStep,
      halike.facing, h.beatsPerStep, h.facing]
  refine ⟨?_, hnext, ?_, ?_, hdefaults, ?_⟩
  · rw [hspots, hspots', halike.spot?_eq]
  · rw [nextSheet?_of_getElem? hs ht, (h.next (i + 1)).1, halike.id, nextSheet?_of_getElem? hu hv]
  · rw [sheetBeats_of_mem hs hmem, halike.beats, halike.id, sheetBeats_of_mem hu hmem']
  · intro cue
    have hlist' : u.listFor t.id dot = (v.positions.get? dot).elim [] fun p => v.list p.symbol := by
      rw [halike.id]
      exact listFor_of_mem hu hmem' dot
    rw [listFor_of_mem hs hmem, hlist', ← halike.placement]
    cases hplace : t.positions.get? dot with
    | none => rfl
    | some p =>
      have hscene : (s.scene t.id).AlikeFor dot (Continuity.watchedAll (t.list p.symbol))
          (u.scene t.id) := by
        refine ⟨rfl, ?_, hnext, hdefaults, rfl⟩
        intro other hother
        change s.spot? t.id other = u.spot? t.id other
        rw [hspots, hspots']
        exact halike.spots p hplace other hother
      exact Continuity.performAll_alike (halike.continuities p hplace) hscene cue

theorem AlikeFor.performSheets_eq (h : s.AlikeFor dot u) (hs : s.sheetIds.Nodup)
    (settings : Settings) : s.performSheets settings dot none s.sheetIds =
      u.performSheets settings dot none u.sheetIds := by
  have hu : u.sheetIds.Nodup := h.sheetIds_eq ▸ hs
  rw [← h.sheetIds_eq]
  refine performSheets_congr settings (List.forall_mem_map.mpr fun t ht => ?_) none
  obtain ⟨i, hi⟩ := List.mem_iff_getElem?.mp ht
  exact h.alikeOn hs hu hi

end Alike

/-- What a dot does, and what is reported for it, does not depend on the others, apart from its own
turn in two-steps and from the spots of those that it marches behind. Two shows that have been read
and that are the same to a dot give it the same track and the same issues. -/
theorem others_make_no_difference {names names' : Names} {doc doc' : String} {s u : Show}
    (settings : Settings) (hread : ofText names doc = .ok s)
    (hread' : ofText names' doc' = .ok u) {dot : DotId} (hdot : dot ∈ s.dotIds)
    (hdot' : dot ∈ u.dotIds) (h : s.AlikeFor dot u) :
    (∃ track, (s.perform settings).track? dot = some track ∧
      (u.perform settings).track? dot = some track) ∧
    ((s.perform settings).issues.filter (·.dot = dot)) =
      (u.perform settings).issues.filter (·.dot = dot) := by
  have hvalid := validate_of_ofText hread
  have hvalid' := validate_of_ofText hread'
  have hsheets := h.performSheets_eq (sheetIds_nodup hvalid) settings
  refine ⟨⟨_, track?_perform settings (dotIds_nodup hvalid) hdot, ?_⟩, ?_⟩
  · rw [track?_perform settings (dotIds_nodup hvalid') hdot', hsheets]
  · rw [issuesFor_perform (dotIds_nodup hvalid) hdot,
      issuesFor_perform (dotIds_nodup hvalid') hdot', hsheets]

def flankedShow (dots : List DotId) (other : DotId) (spot : Spot) (task : Figure) : Show :=
  let plain : Tag := ⟨"c", .plain, none, none⟩
  ⟨"u", 1, .east, dots.map fun dot => ⟨dot, ""⟩,
    [{ Sheet.blank ⟨0⟩ "" 16 with
      positions := .ofList (dots.map fun dot =>
        (dot, if dot = other then ⟨spot, .solid⟩ else ⟨⟨0, 0⟩, .plain⟩))
      continuities := .ofList
        [(.plain, [.twoStep plain [other, ⟨"A"⟩] true
          [.figure plain (.counterMarch [⟨"A"⟩] none)]]),
        (.solid, [.figure ⟨"c", .solid, none, none⟩ task])] }], ⟨1⟩⟩

theorem stored_flankedShow (dots : List DotId) (other : DotId) (spot : Spot) (task : Figure)
    (hvalid : (flankedShow dots other spot task).fault? = none)
    (hstorable : ∀ t ∈ (flankedShow dots other spot task).sheets, t.Storable) :
    (flankedShow dots other spot task).Stored where
  valid := (fault?_eq_none_iff _).mp hvalid
  storable := hstorable
  filed := List.forall_mem_singleton.mpr rfl
  counter := rfl

def flankedByB : Show := flankedShow [⟨"A"⟩, ⟨"B"⟩] ⟨"B"⟩ ⟨4, 0⟩ (.stop true none)

def flankedByC : Show := flankedShow [⟨"C"⟩, ⟨"A"⟩] ⟨"C"⟩ ⟨0, 4⟩ (.followLeader [] [])

theorem alikeFor_flanked : flankedByB.AlikeFor ⟨"A"⟩ flankedByC := by
  refine ⟨rfl, rfl, .cons ⟨rfl, rfl, rfl, rfl, rfl, ?_, ?_⟩ .nil⟩
  · rintro _ ⟨⟩
    exact .cons (.twoStep _ _ rfl (iff_of_false nofun nofun) (.cons (.figure _ _) .nil)) .nil
  · rintro _ ⟨⟩
    exact List.forall_mem_singleton.mpr rfl

theorem others_make_no_difference_beside_two : ∃ s u, ofText (.same "c") flankedByB.toText = .ok s ∧
    ofText (.same "c") flankedByC.toText = .ok u ∧ s.dotIds ≠ u.dotIds ∧
    (s.perform .standard).track? ⟨"A"⟩ = (u.perform .standard).track? ⟨"A"⟩ ∧
    (s.perform .standard).issues.filter (·.dot = ⟨"A"⟩) =
      (u.perform .standard).issues.filter (·.dot = ⟨"A"⟩) := by
  have hread : ofText (.same "c") flankedByB.toText = .ok flankedByB :=
    (stored_flankedShow _ _ _ _ (by decide +kernel)
      (List.forall_mem_singleton.mpr ⟨by decide, by decide, by decide⟩)).reads_back (.same "c")
  have hread' : ofText (.same "c") flankedByC.toText = .ok flankedByC :=
    (stored_flankedShow _ _ _ _ (by decide +kernel)
      (List.forall_mem_singleton.mpr ⟨by decide, by decide, by decide⟩)).reads_back (.same "c")
  obtain ⟨⟨track, htrack, htrack'⟩, hissues⟩ := others_make_no_difference .standard hread hread'
    (by decide) (by decide) alikeFor_flanked
  exact ⟨_, _, hread, hread', by decide, htrack.trans htrack'.symm, hissues⟩

end Show

end MarchingDrill
