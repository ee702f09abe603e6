import MarchingDrill.Proofs.Performance.Row

/-! On a sheet: what a performance holds under the number of a sheet. Behind the first beat of the
sheet a dot's pose there is its pose in the show. The first beat itself belongs to the sheet before,
and there the dot is where its first command starts. -/

namespace MarchingDrill

open Binary64

theorem Segment.poseAt?_zero (g : Segment) :
    g.poseAt? (0 : UInt32).toFloat =
      g.commands.head?.bind (·.poseAt? (0 : UInt32).toFloat) := by
  have hzero : IsWhole (0 : UInt32).toFloat 0 := .of_toFloat 0
  have hover (e : UInt32) : isOver e (0 : UInt32).toFloat = false :=
    Bool.eq_false_iff.mpr fun h =>
      absurd ((hzero.isOver_iff (hzero.isBeat (Nat.zero_le _)) e).mp h) (Nat.not_lt_zero _)
  have hfirst : MarchingDrill.placeAt g.ends (0 : UInt32).toFloat = 0 := by
    rw [MarchingDrill.placeAt]
    cases g.ends with
    | nil => rfl
    | cons e es => rw [List.findIdx_cons, hover]; rfl
  have hplace : g.placeAt (0 : UInt32).toFloat = 0 := by rw [placeAt, hfirst, Nat.zero_min]
  have hstart : startAt g.ends 0 = 0 := rfl
  rw [poseAt?, hplace]
  simp only [hstart, sub_zero hzero.finite, List.head?_eq_getElem?]

namespace Track

variable {t : Track} {beat : Float} {k : Nat} {stay : Stay} {b : UInt32}
  (hs : t.stays[k]? = some stay) (hfit : exactSum (t.stays.map Stay.beats) < 2 ^ 32)
  (hfirst : 0 < b.toNat) (hlast : b.toNat ≤ stay.beats.toNat)
  (hn : IsWhole beat (exactSum ((t.stays.map Stay.beats).take k) + b.toNat))

include hs hfit hfirst hlast hn

theorem placeAt_of_within : t.placeAt beat = k := by
  have hsum := exactSum_take_succ hs
  have hle := exactSum_take_le (t.stays.map Stay.beats) (k + 1)
  have hx : IsBeat beat := hn.isBeat (by omega)
  obtain ⟨hlt, rfl⟩ := List.getElem?_eq_some_iff.mp hs
  have hlen : t.ends.length = t.stays.length := by rw [ends, length_endsFrom, List.length_map]
  have hend {j : Nat} (hj : j < t.ends.length) :
      t.ends[j].toNat = exactSum ((t.stays.map Stay.beats).take (j + 1)) := by
    obtain ⟨e, he, heq⟩ := toNat_end hfit (by rwa [List.length_map, ← hlen])
    rw [← heq, Option.some.inj ((List.getElem?_eq_getElem hj).symm.trans he)]
  have hplace : MarchingDrill.placeAt t.ends beat = k := by
    refine (List.findIdx_eq (hlen ▸ hlt)).mpr ⟨?_, fun j hj => ?_⟩
    · rw [Bool.not_eq_true', Bool.eq_false_iff, Ne, hn.isOver_iff hx, hend]
      omega
    · have hbefore := exactSum_take_mono (t.stays.map Stay.beats) (Nat.add_one_le_of_lt hj)
      rw [Bool.not_eq_false', hn.isOver_iff hx, hend]
      omega
  have hbeats : ¬t.stays[k].beats = 0 := fun hzero => by
    rw [hzero, UInt32.toNat_zero] at hlast
    omega
  rw [placeAt, hplace, List.drop_eq_getElem_cons hlt, List.takeWhile_cons,
    if_neg (by simpa using hbeats), List.length_nil, Nat.add_zero]

theorem poseAt?_of_within : t.poseAt? beat = stay.segment.poseAt? b.toFloat := by
  have hsum := exactSum_take_succ hs
  have hle := exactSum_take_le (t.stays.map Stay.beats) (k + 1)
  have hx : IsBeat beat := hn.isBeat (by omega)
  have htotal : t.total.toNat = exactSum (t.stays.map Stay.beats) := toNat_lastEnd hfit
  have hwithin : value beat ≤ (t.total.toNat * one : Nat) := by
    rw [hn.value_eq, htotal]
    exact Int.ofNat_le.mpr (Nat.mul_le_mul_right one (by omega))
  have hlt : k < (t.stays.map Stay.beats).length := by
    rw [List.length_map]
    exact (List.getElem?_eq_some_iff.mp hs).1
  have hstart : (startAt t.ends k).toNat = exactSum ((t.stays.map Stay.beats).take k) :=
    toNat_startAt hfit hlt.le
  have hpos := Nat.mul_pos hfirst one_units_pos
  obtain ⟨hrest, hvalue⟩ := hx.sub_toFloat (startAt t.ends k) <| by
    rw [hn.value_eq, hstart, Nat.add_mul]
    omega
  have hsub : beat - (startAt t.ends k).toFloat = b.toFloat := by
    rw [hn.value_eq, hstart, Nat.add_mul] at hvalue
    refine eq_of_value_eq hrest.finite (value_toFloat b).1 ?_ ?_
    · rw [(value_toFloat b).2]
      omega
    · omega
  rw [poseAt?_of_le hx hwithin, placeAt_of_within hs hfit hfirst hlast hn, hs, Option.bind_some,
    hsub]

end Track

/-- The pose of a dot a number of beats into a sheet. -/
def Performance.poseOn? (p : Performance) (sheet : SheetId) (beat : UInt32) (dot : DotId) :
    Option Pose :=
  (p.segment? dot sheet).bind (·.poseAt? beat.toFloat)

namespace Show

variable {s : Show} {settings : Settings}

theorem beats_of_mem_spansFrom {start : UInt32} {sheets : List SheetId} {span : Span}
    (h : span ∈ s.spansFrom start sheets) : span.beats = s.sheetBeats span.sheet := by
  induction sheets generalizing start with
  | nil => cases h
  | cons sheet sheets ih =>
    rcases List.mem_cons.mp h with rfl | h
    · rfl
    · exact ih h

theorem span?_perform_of_notMem (settings : Settings) {sheet : SheetId}
    (hsheet : sheet ∉ s.sheetIds) : (s.perform settings).span? sheet = none := by
  rw [Performance.span?, List.find?_eq_none]
  intro span hspan
  rw [← map_sheet_perform s settings] at hsheet
  simpa using fun heq => hsheet (List.mem_map.mpr ⟨span, hspan, heq⟩)

theorem span?_of_mem (hsheets : s.sheetIds.Nodup) {span : Span}
    (h : span ∈ (s.perform settings).spans) :
    (s.perform settings).span? span.sheet = some span :=
  find?_key_of_mem Span.sheet (map_sheet_perform s settings ▸ hsheets) h

theorem exists_span (settings : Settings) (hsheets : s.sheetIds.Nodup) {t : Sheet}
    (ht : t ∈ s.sheets) :
    ∃ span, (s.perform settings).span? t.id = some span ∧ span.beats = t.beats := by
  have hmem : t.id ∈ (s.perform settings).spans.map Span.sheet := by
    rw [map_sheet_perform]
    exact List.mem_map_of_mem ht
  obtain ⟨span, hspan, hsheet⟩ := List.mem_map.mp hmem
  refine ⟨span, hsheet ▸ span?_of_mem hsheets hspan, ?_⟩
  rw [perform_spans] at hspan
  rw [beats_of_mem_spansFrom hspan, hsheet, sheetBeats_of_mem hsheets ht]

theorem start_of_span? (hsheets : s.sheetIds.Nodup)
    (hfit : exactSum (s.sheets.map Sheet.beats) < 2 ^ 32) {i : Nat} {t : Sheet}
    (ht : s.sheets[i]? = some t) {span : Span} (h : (s.perform settings).span? t.id = some span) :
    span.start.toNat = exactSum ((s.sheets.map Sheet.beats).take i) := by
  have hlt : (0 : UInt32).toNat + exactSum (s.sheetIds.map s.sheetBeats) < 2 ^ 32 := by
    rw [map_sheetBeats hsheets]
    simpa using hfit
  obtain ⟨span', hspan', hsheet, -, hstart⟩ := s.spansFrom_getElem? hlt (getElem?_sheetIds ht)
  rw [← perform_spans s settings] at hspan'
  have hfound : (s.perform settings).span? t.id = some span' :=
    hsheet ▸ span?_of_mem hsheets (List.mem_of_getElem? hspan')
  rw [Option.some.inj (h.symm.trans hfound), hstart, map_sheetBeats hsheets, UInt32.toNat_zero,
    Nat.zero_add]

theorem segment?_perform (settings : Settings) (hdots : s.dotIds.Nodup)
    (hsheets : s.sheetIds.Nodup) {dot : DotId} (hdot : dot ∈ s.dotIds) {i : Nat} {t : Sheet}
    (ht : s.sheets[i]? = some t) :
    ∃ stay, (s.performSheets settings dot none s.sheetIds).1[i]? = some stay ∧
      stay.beats = t.beats ∧ (s.perform settings).segment? dot t.id = some stay.segment := by
  obtain ⟨before, v⟩ := exists_visit settings dot hsheets none (getElem?_sheetIds ht)
  refine ⟨_, v.stay, sheetBeats_of_mem hsheets (List.mem_of_getElem? ht), ?_⟩
  have hkeys : ((s.performSheets settings dot none s.sheetIds).1.map Stay.segment).map
      Segment.sheet = s.sheetIds := by
    rw [List.map_map]
    exact map_sheet_performSheets none s.sheetIds
  rw [Performance.segment?, track?_perform settings hdots hdot, Option.bind_some]
  exact find?_key_of_mem Segment.sheet (hkeys ▸ hsheets)
    (List.mem_map_of_mem (List.mem_of_getElem? v.stay))

theorem track?_perform_of_notMem (settings : Settings) {dot : DotId} (hdot : dot ∉ s.dotIds) :
    (s.perform settings).track? dot = none := by
  rw [track?_perform_eq, List.find?_eq_none.mpr, Option.map_none]
  intro other hother
  simpa using fun heq : other = dot => hdot (heq ▸ hother)

theorem poseOn?_eq_poseAt? (settings : Settings) (hdots : s.dotIds.Nodup)
    (hsheets : s.sheetIds.Nodup) (hfit : exactSum (s.sheets.map Sheet.beats) < 2 ^ 32) {t : Sheet}
    (ht : t ∈ s.sheets) {span : Span} (hspan : (s.perform settings).span? t.id = some span)
    (dot : DotId) {b : UInt32} (hfirst : 1 ≤ b) (hlast : b < t.beats) {beat : Float}
    (hn : IsWhole beat (span.start.toNat + b.toNat)) :
    (s.perform settings).poseOn? t.id b dot = (s.perform settings).poseAt? dot beat := by
  rw [Performance.poseOn?, Performance.poseAt?]
  by_cases hdot : dot ∈ s.dotIds
  · obtain ⟨i, hi⟩ := List.mem_iff_getElem?.mp ht
    obtain ⟨stay, hstay, hbeats, hsegment⟩ := segment?_perform settings hdots hsheets hdot hi
    have hall : (s.performSheets settings dot none s.sheetIds).1.map Stay.beats =
        s.sheets.map Sheet.beats := by
      rw [map_beats_performSheets, map_sheetBeats hsheets]
    rw [start_of_span? hsheets hfit hi hspan, ← hall] at hn
    rw [← hall] at hfit
    rw [hsegment, track?_perform settings hdots hdot, Option.bind_some, Option.bind_some]
    have hwithin : b.toNat ≤ stay.beats.toNat := by
      rw [hbeats]
      exact (UInt32.lt_iff_toNat_lt.mp hlast).le
    have hpose : (Track.mk dot _).poseAt? beat = _ :=
      Track.poseAt?_of_within hstay hfit (UInt32.le_iff_toNat_le.mp hfirst) hwithin hn
    exact hpose.symm
  · rw [Performance.segment?, track?_perform_of_notMem settings hdot]
    rfl

end Show

end MarchingDrill
