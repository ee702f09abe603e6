import MarchingDrill.Proofs.Performance.Likeness
import MarchingDrill.Proofs.Performance.Row
import MarchingDrill.Proofs.Show.Reloading

/-! Foresight: dots look no further ahead than the next formation. What shows have in common up to a
sheet, the formation on it included, settles what their dots do before that sheet. -/

namespace MarchingDrill

open Binary64

namespace Track

variable {beat : Float} {dot : DotId} {front back : List Stay}

theorem placeAt_append (hlt : (Track.mk dot front).placeAt beat < front.length) :
    (Track.mk dot (front ++ back)).placeAt beat = (Track.mk dot front).placeAt beat := by
  obtain ⟨place, hplace⟩ :
      ∃ place, MarchingDrill.placeAt (Track.mk dot front).ends beat = place := ⟨_, rfl⟩
  simp only [placeAt, hplace] at hlt ⊢
  have hbefore : place < front.length := Nat.lt_of_le_of_lt (Nat.le_add_right _ _) hlt
  have hsame : MarchingDrill.placeAt (Track.mk dot (front ++ back)).ends beat = place := by
    rw [ends, List.map_append, endsFrom_append, MarchingDrill.placeAt, List.findIdx_append]
    rw [ends, MarchingDrill.placeAt] at hplace
    rw [hplace, if_pos (by rwa [length_endsFrom, List.length_map])]
  rw [hsame, List.drop_append_of_le_length hbefore.le, List.takeWhile_append, if_neg]
  rw [List.length_drop]
  omega

theorem poseAt?_append (hx : IsBeat beat)
    (hfit : exactSum ((front ++ back).map Stay.beats) < 2 ^ 32)
    (hpos : 0 < exactSum (front.map Stay.beats))
    (hle : value beat ≤ (exactSum (front.map Stay.beats) * one : Nat)) :
    (Track.mk dot (front ++ back)).poseAt? beat = (Track.mk dot front).poseAt? beat := by
  have hsum : exactSum ((front ++ back).map Stay.beats) =
      exactSum (front.map Stay.beats) + exactSum (back.map Stay.beats) := by
    rw [List.map_append, exactSum_append]
  have hfront : exactSum (front.map Stay.beats) < 2 ^ 32 := by omega
  have hlt : (Track.mk dot front).placeAt beat < front.length :=
    placeAt_lt_length hx hfront hpos hle
  have hpose : (Track.mk dot front).poseAt? beat = _ := poseAt?_of_le hx <| by
    rwa [total, ends, toNat_lastEnd hfront]
  have hposeAll : (Track.mk dot (front ++ back)).poseAt? beat = _ := poseAt?_of_le hx <| by
    rw [total, ends, toNat_lastEnd hfit, hsum, Nat.add_mul]
    omega
  have hplace : (Track.mk dot front).placeAt beat ≤ (front.map Stay.beats).length :=
    hlt.le.trans_eq (List.length_map _).symm
  have hstart := startAt_append (back.map Stay.beats) hplace
  rw [hpose, hposeAll, placeAt_append hlt, List.getElem?_append_left hlt, ends, List.map_append,
    hstart, ends]

end Track

namespace Show

/-- Shows with the same dots and options that have their first `k` sheets in common, and the spots
on the sheet behind them if there is one. -/
structure AgreeUpTo (k : Nat) (s u : Show) : Prop where
  dots : s.dotIds = u.dotIds
  beatsPerStep : s.beatsPerStep = u.beatsPerStep
  facing : s.facing = u.facing
  sheets : s.sheets.take k = u.sheets.take k
  next : ∀ dot, s.sheets[k]?.map (·.spot? dot) = u.sheets[k]?.map (·.spot? dot)

section Agree

variable {k : Nat} {s u : Show}

theorem AgreeUpTo.getElem? (h : AgreeUpTo k s u) {i : Nat} (hi : i < k) :
    s.sheets[i]? = u.sheets[i]? := by
  rw [← List.getElem?_take_of_lt hi, h.sheets, List.getElem?_take_of_lt hi]

theorem AgreeUpTo.spots (h : AgreeUpTo k s u) {i : Nat} (hi : i ≤ k) (dot : DotId) :
    s.sheets[i]?.map (·.spot? dot) = u.sheets[i]?.map (·.spot? dot) := by
  rcases Nat.lt_or_eq_of_le hi with hlt | rfl
  · rw [h.getElem? hlt]
  · exact h.next dot

theorem AgreeUpTo.alikeOn (h : AgreeUpTo k s u) (hs : s.sheetIds.Nodup) (hu : u.sheetIds.Nodup)
    {i : Nat} (hi : i < k) {t : Sheet} (ht : s.sheets[i]? = some t) (dot : DotId) :
    s.AlikeOn u dot t.id := by
  have ht' : u.sheets[i]? = some t := (h.getElem? hi).symm.trans ht
  have hmem := List.mem_of_getElem? ht
  have hmem' := List.mem_of_getElem? ht'
  have hspot : s.spot? t.id = u.spot? t.id := by
    funext other
    rw [spot?_of_mem hs hmem, spot?_of_mem hu hmem']
  have hnext : s.nextSpot? t.id = u.nextSpot? t.id := by
    funext other
    have hspots := congrArg (Option.bind · id) (h.spots (Nat.succ_le_of_lt hi) other)
    simp only [Option.bind_map, Function.id_comp] at hspots
    rw [nextSpot?_of_getElem? hs ht, nextSpot?_of_getElem? hu ht', hspots]
  have hdefaults : s.defaults t.id = u.defaults t.id := by
    rw [defaults, defaults, sheet?_of_mem hs hmem, sheet?_of_mem hu hmem', h.beatsPerStep, h.facing]
  have hscene : s.scene t.id = u.scene t.id := by
    rw [scene, scene, hspot, hnext, hdefaults]
  refine ⟨congrFun hspot dot, congrFun hnext dot, ?_, ?_, hdefaults, ?_⟩
  · have hspots := congrArg Option.isSome (h.spots (Nat.succ_le_of_lt hi) dot)
    rw [Option.isSome_map, Option.isSome_map] at hspots
    rw [nextSheet?_of_getElem? hs ht, nextSheet?_of_getElem? hu ht', hspots]
  · rw [sheetBeats_of_mem hs hmem, sheetBeats_of_mem hu hmem']
  · intro cue
    rw [hscene, listFor_of_mem hs hmem, listFor_of_mem hu hmem']

theorem AgreeUpTo.sheetIds (h : AgreeUpTo k s u) : s.sheetIds.take k = u.sheetIds.take k := by
  rw [Show.sheetIds, Show.sheetIds, ← List.map_take, ← List.map_take, h.sheets]

theorem AgreeUpTo.performSheets_eq (h : AgreeUpTo k s u) (hs : s.sheetIds.Nodup)
    (hu : u.sheetIds.Nodup) (settings : Settings) (dot : DotId) :
    s.performSheets settings dot none (s.sheetIds.take k) =
      u.performSheets settings dot none (u.sheetIds.take k) := by
  rw [← h.sheetIds]
  refine performSheets_congr settings ?_ none
  intro sheet hsheet
  rw [Show.sheetIds, ← List.map_take] at hsheet
  obtain ⟨t, ht, rfl⟩ := List.mem_map.mp hsheet
  obtain ⟨i, hi⟩ := List.mem_iff_getElem?.mp ht
  rw [List.getElem?_take] at hi
  split at hi
  · next hlt => exact h.alikeOn hs hu hlt hi dot
  · cases hi

theorem AgreeUpTo.map_segments (h : AgreeUpTo k s u) (hs : s.sheetIds.Nodup)
    (hu : u.sheetIds.Nodup) (settings : Settings) (dot : DotId) :
    ((s.perform settings).track? dot).map (fun t => t.segments.take k) =
      ((u.perform settings).track? dot).map fun t => t.segments.take k := by
  rw [track?_perform_eq, track?_perform_eq, h.dots, Option.map_map, Option.map_map]
  refine Option.map_congr fun d _ => ?_
  simp only [Function.comp_apply, Track.segments, ← List.map_take, take_performSheets,
    h.performSheets_eq hs hu]

end Agree

theorem poseAt?_take {s : Show} (hnodup : s.sheetIds.Nodup)
    (hfit : exactSum (s.sheets.map Sheet.beats) < 2 ^ 32) {k : Nat}
    (hpos : 0 < exactSum ((s.sheets.take k).map Sheet.beats)) {beat : Float} {n : Nat}
    (hn : IsWhole beat n) (hle : n ≤ exactSum ((s.sheets.take k).map Sheet.beats))
    (settings : Settings) (dot : DotId) :
    (Track.mk dot (s.performSheets settings dot none s.sheetIds).1).poseAt? beat =
      (Track.mk dot ((s.performSheets settings dot none s.sheetIds).1.take k)).poseAt? beat := by
  have hbeats : (s.performSheets settings dot none s.sheetIds).1.map Stay.beats =
      s.sheets.map Sheet.beats := by
    rw [map_beats_performSheets, map_sheetBeats hnodup]
  obtain ⟨stays, hstays⟩ :
      ∃ stays, (s.performSheets settings dot none s.sheetIds).1 = stays := ⟨_, rfl⟩
  rw [hstays] at hbeats ⊢
  rw [List.map_take, ← hbeats, ← List.map_take] at hpos hle
  rw [← hbeats] at hfit
  have hfront := exactSum_take_le (stays.map Stay.beats) k
  rw [← List.map_take] at hfront
  have hmul := Nat.mul_le_mul_right one hle
  have happend : (Track.mk dot (stays.take k ++ stays.drop k)).poseAt? beat = _ :=
    Track.poseAt?_append (hn.isBeat (by omega)) (by rwa [List.take_append_drop]) hpos
      (by rw [hn.value_eq]; omega)
  rwa [List.take_append_drop] at happend

/-- Nothing behind the next formation changes what dots do. When two shows that have been read agree
up to a sheet, the segments and the issues of all dots on the sheets before it are the same. So are
the poses until these sheets end, provided that they have beats and that both shows fit in 32
bits. -/
theorem earlier_sheets_settled {names names' : Names} {doc doc' : String} {s u : Show}
    (settings : Settings) (hread : ofText names doc = .ok s)
    (hread' : ofText names' doc' = .ok u) {k : Nat} (h : AgreeUpTo k s u) :
    let p := s.perform settings
    let q := u.perform settings
    let beats := (s.sheets.take k).map Sheet.beats
    (∀ dot, (p.track? dot).map (fun t => t.segments.take k) =
      (q.track? dot).map fun t => t.segments.take k) ∧
    (p.issues.filter fun issue => issue.sheet ∈ s.sheetIds.take k) =
      (q.issues.filter fun issue => issue.sheet ∈ u.sheetIds.take k) ∧
    (exactSum (s.sheets.map Sheet.beats) < 2 ^ 32 → exactSum (u.sheets.map Sheet.beats) < 2 ^ 32 →
      0 < exactSum beats → ∀ (dot : DotId) (beat : Float) (n : Nat), IsWhole beat n →
        n ≤ exactSum beats → p.poseAt? dot beat = q.poseAt? dot beat) := by
  intro p q beats
  have hs := sheetIds_nodup (validate_of_ofText hread)
  have hu := sheetIds_nodup (validate_of_ofText hread')
  have hstays : ∀ dot, (s.performSheets settings dot none s.sheetIds).1.take k =
      (u.performSheets settings dot none u.sheetIds).1.take k := by
    intro dot
    rw [take_performSheets, take_performSheets, h.performSheets_eq hs hu]
  refine ⟨h.map_segments hs hu settings, ?_, ?_⟩
  · simp only [p, q, perform_issues, List.filter_flatMap, filter_take_performSheets hs,
      filter_take_performSheets hu, h.performSheets_eq hs hu, h.dots]
  · intro hfit hfit' hpos dot beat n hn hle
    have hle' := hle
    have hpos' := hpos
    simp only [beats, h.sheets] at hle' hpos'
    simp only [p, q, Performance.poseAt?, track?_perform_eq, h.dots, Option.bind_map]
    refine Option.bind_congr fun d _ => ?_
    simp only [Function.comp_apply]
    rw [poseAt?_take hs hfit hpos hn hle, poseAt?_take hu hfit' hpos' hn hle', hstays]

def holdingSheet (id beats : UInt32) : Sheet :=
  { Sheet.blank ⟨id⟩ "" beats with
    positions := ⟨[(⟨"A"⟩, ⟨⟨0, 0⟩, .plain⟩)], List.nodup_singleton _⟩ }

def holdingShow (last : UInt32) : Show :=
  ⟨"u", 1, .east, [⟨⟨"A"⟩, ""⟩], [holdingSheet 0 8, holdingSheet 1 last], ⟨2⟩⟩

theorem forall_mem_holdingShow {P : Sheet → Prop} (h : ∀ id beats, P (holdingSheet id beats))
    (last : UInt32) : ∀ t ∈ (holdingShow last).sheets, P t :=
  List.forall_mem_cons.mpr ⟨h 0 8, List.forall_mem_singleton.mpr (h 1 last)⟩

theorem stored_holdingShow (last : UInt32) : (holdingShow last).Stored where
  valid := by
    have hids : (holdingShow last).sheetIds = [⟨0⟩, ⟨1⟩] := rfl
    refine ⟨UInt32.le_refl 1, List.nodup_singleton _, ?_, ?_⟩
    · rw [hids]
      decide
    · exact forall_mem_holdingShow (fun id beats => ⟨nofun, fun dot hdot => hdot, nofun⟩) last
  storable := by
    refine forall_mem_holdingShow (fun id beats => ⟨?_, nofun, nofun⟩) last
    exact List.forall_mem_singleton.mpr (by decide)
  filed := forall_mem_holdingShow (fun id beats => rfl) last
  counter := rfl

theorem agree_holdingShow (m n : UInt32) : AgreeUpTo 1 (holdingShow m) (holdingShow n) :=
  ⟨rfl, rfl, rfl, rfl, fun _ => rfl⟩

theorem earlier_sheets_settled_on_eight : ∃ s u, ofText (.same "c") (holdingShow 4).toText = .ok s ∧
    ofText (.same "c") (holdingShow 6).toText = .ok u ∧
    ((s.perform .standard).track? ⟨"A"⟩).map (fun t => t.segments.take 1) =
      ((u.perform .standard).track? ⟨"A"⟩).map (fun t => t.segments.take 1) ∧
    (s.perform .standard).poseAt? ⟨"A"⟩ (8 : UInt32).toFloat =
      (u.perform .standard).poseAt? ⟨"A"⟩ (8 : UInt32).toFloat := by
  have hread := (stored_holdingShow 4).reads_back (.same "c")
  have hread' := (stored_holdingShow 6).reads_back (.same "c")
  obtain ⟨htracks, -, hposes⟩ :=
    earlier_sheets_settled .standard hread hread' (agree_holdingShow 4 6)
  exact ⟨_, _, hread, hread', htracks _,
    hposes (by decide) (by decide) (by decide) _ _ 8 (.of_toFloat 8) (by decide)⟩

/-- The proviso is needed. With 2^32 - 1 beats on the second sheet the total wraps around to 7, and
the last beat of the first sheet lies outside the show. -/
theorem last_pose_lost : ∃ s u, ofText (.same "c") (holdingShow 4).toText = .ok s ∧
    ofText (.same "c") (holdingShow 4294967295).toText = .ok u ∧ AgreeUpTo 1 s u ∧
    s.sheetIds = u.sheetIds ∧ exactSum ((s.sheets.take 1).map Sheet.beats) = 8 ∧
    IsWhole (8 : UInt32).toFloat 8 ∧
    (s.perform .standard).poseAt? ⟨"A"⟩ (8 : UInt32).toFloat ≠
      (u.perform .standard).poseAt? ⟨"A"⟩ (8 : UInt32).toFloat := by
  have hposes : ((holdingShow 4).perform .standard).poseAt? ⟨"A"⟩ (8 : UInt32).toFloat ≠
      ((holdingShow 4294967295).perform .standard).poseAt? ⟨"A"⟩ (8 : UInt32).toFloat := by
    decide +kernel
  exact ⟨_, _, (stored_holdingShow 4).reads_back (.same "c"),
    (stored_holdingShow 4294967295).reads_back (.same "c"), agree_holdingShow 4 4294967295, rfl,
    rfl, .of_toFloat 8, hposes⟩

end Show

end MarchingDrill
