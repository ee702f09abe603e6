import MarchingDrill.Proofs.Performance.Places
import MarchingDrill.Proofs.Performance.Tiling

/-! Gaps: beats at which a dot that is always on the field has no pose. The search for the command
under way takes the slack off the beat, the command itself adds it to its own duration, and the two
do not round alike. A beat that the search leaves to a command and that the command takes for past
its end falls into the gap between them, and there are no other gaps. -/

namespace MarchingDrill

open Binary64

/-- Whether the command under way at a beat of the sheet takes the beat to be past its end. -/
def Segment.Overruns (g : Segment) (beat : Float) : Prop :=
  ∃ c, g.commands[g.placeAt beat]? = some c ∧
    c.duration.toFloat + beatSlack < beat - (startAt g.ends (g.placeAt beat)).toFloat

def Track.Overruns (t : Track) (beat : Float) : Prop :=
  ∃ s, t.stays[t.placeAt beat]? = some s ∧
    s.segment.Overruns (beat - (startAt t.ends (t.placeAt beat)).toFloat)

def Track.commandEnds (t : Track) : List UInt32 :=
  t.stays.zipIdx.flatMap fun (s, i) => s.segment.ends.map (startAt t.ends i + ·)

def Stay.Full (s : Stay) : Prop :=
  exactSum (s.segment.commands.map Command.duration) = s.beats.toNat

theorem Stay.Full.fits {s : Stay} (h : s.Full) :
    exactSum (s.segment.commands.map Command.duration) < 2 ^ 32 := by
  rw [h]
  exact s.beats.toNat_lt

theorem Stay.Full.commands_ne_nil {s : Stay} (h : s.Full) (hbeats : s.beats ≠ 0) :
    s.segment.commands ≠ [] := by
  intro hnil
  unfold Stay.Full at h
  rw [hnil] at h
  exact hbeats (UInt32.toNat_inj.mp h.symm)

theorem Command.poseAt?_eq_none_iff {c : Command} {x : Float} (hx : IsBeat x) :
    c.poseAt? x = none ↔ c.duration.toFloat + beatSlack < x := by
  rw [← hx.beatWithin?_eq_none_iff, Command.poseAt?, Option.map_eq_none_iff]

namespace Segment

variable {g : Segment} {x : Float}

theorem exists_command (hx : IsBeat x)
    (hfit : exactSum (g.commands.map Command.duration) < 2 ^ 32) (hne : g.commands ≠ []) :
    ∃ c, g.commands[g.placeAt x]? = some c ∧
      IsBeat (x - (startAt g.ends (g.placeAt x)).toFloat) ∧
      value (x - (startAt g.ends (g.placeAt x)).toFloat) = value x -
        (exactSum ((g.commands.map Command.duration).take (g.placeAt x)) * one : Nat) := by
  have hpos : 0 < g.commands.length := List.length_pos_iff.mpr hne
  have hlt : g.placeAt x < g.commands.length := by
    unfold placeAt
    omega
  have hstart : (startAt g.ends (g.placeAt x)).toNat =
      exactSum ((g.commands.map Command.duration).take (g.placeAt x)) :=
    toNat_startAt hfit (by rw [List.length_map]; exact hlt.le)
  have hle : (((startAt g.ends (g.placeAt x)).toNat * one : Nat) : Int) ≤ value x :=
    startAt_le hx (Nat.min_le_left _ _)
  obtain ⟨hbeat, hvalue⟩ := hx.sub_toFloat _ hle
  exact ⟨_, List.getElem?_eq_getElem hlt, hbeat, hstart ▸ hvalue⟩

theorem poseAt?_eq_none_iff (hx : IsBeat x)
    (hfit : exactSum (g.commands.map Command.duration) < 2 ^ 32) (hne : g.commands ≠ []) :
    g.poseAt? x = none ↔ g.Overruns x := by
  obtain ⟨c, hc, hbeat, -⟩ := exists_command hx hfit hne
  unfold poseAt? Overruns
  simp only [hc, Option.bind_some, Option.some.injEq, exists_eq_left']
  exact Command.poseAt?_eq_none_iff hbeat

theorem Overruns.exists_end (hx : IsBeat x)
    (hfit : exactSum (g.commands.map Command.duration) < 2 ^ 32) (h : g.Overruns x)
    (hle : value x ≤ (exactSum (g.commands.map Command.duration) * one : Nat) + 2 * slackUnits) :
    ∃ e ∈ g.ends, ((e.toNat * one : Nat) : Int) < value x ∧
      value x ≤ (e.toNat * one : Nat) + 2 * slackUnits := by
  obtain ⟨c, hc, hpast⟩ := h
  have hlt : g.placeAt x < g.commands.length := (List.getElem?_eq_some_iff.mp hc).1
  have hne : g.commands ≠ [] := List.ne_nil_of_length_pos (by omega)
  obtain ⟨c', hc', hbeat, hvalue⟩ := exists_command hx hfit hne
  have hlen : g.placeAt x < (g.commands.map Command.duration).length := by
    rw [List.length_map]
    exact hlt
  obtain ⟨e, he, hsum⟩ := toNat_end hfit hlen
  have hduration : (g.commands.map Command.duration)[g.placeAt x]? = some c.duration := by
    rw [List.getElem?_map, hc, Option.map_some]
  have hend : e.toNat =
      exactSum ((g.commands.map Command.duration).take (g.placeAt x)) + c.duration.toNat := by
    rw [hsum, List.take_add_one, hduration, exactSum_append]
    rfl
  refine ⟨e, List.mem_of_getElem? he, ?_, ?_⟩
  · have hlate := hbeat.lt_of_past c.duration hpast
    rw [hend, Nat.add_mul]
    omega
  · -- either the search found the command, or it fell back on the last one
    rcases Nat.lt_or_ge (MarchingDrill.placeAt g.ends x) g.commands.length with hin | hout
    · have hplace : g.placeAt x = MarchingDrill.placeAt g.ends x := by
        unfold placeAt
        omega
      rw [hsum, hplace]
      exact le_end hx hfit (by rw [List.length_map]; exact hin)
    · have hlast : g.placeAt x + 1 = (g.commands.map Command.duration).length := by
        rw [List.length_map]
        unfold placeAt
        omega
      rw [hsum, hlast, List.take_length]
      exact hle

end Segment

namespace Track

variable {t : Track} {beat : Float}

theorem exactSum_map_takeWhile (stays : List Stay) :
    exactSum ((stays.takeWhile (·.beats = 0)).map Stay.beats) = 0 := by
  induction stays with
  | nil => rfl
  | cons s ss ih =>
    rw [List.takeWhile_cons]
    split
    · next hzero =>
      rw [List.map_cons, exactSum_cons, ih, of_decide_eq_true hzero]
      rfl
    · rfl

theorem exactSum_take_placeAt (t : Track) (beat : Float) :
    exactSum ((t.stays.map Stay.beats).take (t.placeAt beat)) =
      exactSum ((t.stays.map Stay.beats).take (MarchingDrill.placeAt t.ends beat)) := by
  have hprefix : (t.stays.drop (MarchingDrill.placeAt t.ends beat)).take
      ((t.stays.drop (MarchingDrill.placeAt t.ends beat)).takeWhile (·.beats = 0)).length =
        (t.stays.drop (MarchingDrill.placeAt t.ends beat)).takeWhile (·.beats = 0) :=
    (List.prefix_iff_eq_take.mp (List.takeWhile_prefix _)).symm
  rw [placeAt, List.take_add, exactSum_append, ← List.map_drop, ← List.map_take,
    ← List.map_take, hprefix, exactSum_map_takeWhile, Nat.add_zero]

theorem not_of_getElem?_takeWhile {α : Type} {p : α → Bool} {as : List α} {a : α}
    (h : as[(as.takeWhile p).length]? = some a) : p a = false := by
  induction as with
  | nil => cases h
  | cons b as ih =>
    rw [List.takeWhile_cons] at h
    split at h
    · exact ih h
    · next hb =>
      cases h
      exact Bool.eq_false_iff.mpr hb

theorem beats_ne_zero {s : Stay} (h : t.stays[t.placeAt beat]? = some s) : s.beats ≠ 0 := by
  rw [placeAt, ← List.getElem?_drop] at h
  have hnot := not_of_getElem?_takeWhile h
  exact of_decide_eq_false hnot

theorem placeAt_lt_length (hx : IsBeat beat) (hfit : exactSum (t.stays.map Stay.beats) < 2 ^ 32)
    (hpos : 0 < exactSum (t.stays.map Stay.beats))
    (hle : value beat ≤ (exactSum (t.stays.map Stay.beats) * one : Nat)) :
    t.placeAt beat < t.stays.length := by
  have hne : t.stays.map Stay.beats ≠ [] := by
    intro hnil
    rw [hnil] at hpos
    exact absurd hpos (by decide)
  have hlt : MarchingDrill.placeAt t.ends beat < (t.stays.map Stay.beats).length :=
    placeAt_lt hx hfit hne hle
  have hskip := t.exactSum_take_placeAt beat
  -- otherwise only sheets without beats would follow, and the show would have ended before
  by_contra hout
  rw [List.take_of_length_le (by rw [List.length_map]; omega)] at hskip
  have hstart : (startAt t.ends (MarchingDrill.placeAt t.ends beat)).toNat = _ :=
    toNat_startAt hfit hlt.le
  rcases Nat.eq_zero_or_pos (MarchingDrill.placeAt t.ends beat) with hzero | hplace
  · rw [hskip, hzero] at hpos
    exact absurd hpos (Nat.lt_irrefl 0)
  · have hover : (((startAt t.ends (MarchingDrill.placeAt t.ends beat)).toNat * one : Nat) : Int) <
        value beat := startAt_lt hx (Nat.le_refl _) hplace.ne'
    rw [hstart, ← hskip] at hover
    omega

theorem exactSum_take_succ {k : Nat} {s : Stay} (hs : t.stays[k]? = some s) :
    exactSum ((t.stays.map Stay.beats).take (k + 1)) =
      exactSum ((t.stays.map Stay.beats).take k) + s.beats.toNat := by
  rw [List.take_add_one, List.getElem?_map, hs, exactSum_append]
  rfl

theorem stay_under_way (hx : IsBeat beat) (hfit : exactSum (t.stays.map Stay.beats) < 2 ^ 32)
    {s : Stay} (hs : t.stays[t.placeAt beat]? = some s) :
    IsBeat (beat - (startAt t.ends (t.placeAt beat)).toFloat) ∧
      value (beat - (startAt t.ends (t.placeAt beat)).toFloat) =
        value beat - ((startAt t.ends (t.placeAt beat)).toNat * one : Nat) ∧
      value beat ≤ (((startAt t.ends (t.placeAt beat)).toNat + s.beats.toNat) * one : Nat) +
        2 * slackUnits := by
  have hlt : t.placeAt beat < (t.stays.map Stay.beats).length := by
    rw [List.length_map]
    exact (List.getElem?_eq_some_iff.mp hs).1
  have hfirst : MarchingDrill.placeAt t.ends beat ≤ t.placeAt beat := Nat.le_add_right _ _
  have hstart : (startAt t.ends (t.placeAt beat)).toNat =
      exactSum ((t.stays.map Stay.beats).take (t.placeAt beat)) := toNat_startAt hfit hlt.le
  have hskip := t.exactSum_take_placeAt beat
  have hle' : (((startAt t.ends (t.placeAt beat)).toNat * one : Nat) : Int) ≤ value beat := by
    rw [hstart, hskip, ← toNat_startAt hfit (hfirst.trans hlt.le)]
    exact startAt_le hx (Nat.le_refl _)
  obtain ⟨hbeat, hvalue⟩ := hx.sub_toFloat _ hle'
  refine ⟨hbeat, hvalue, ?_⟩
  have hend : exactSum ((t.stays.map Stay.beats).take (t.placeAt beat + 1)) =
      (startAt t.ends (t.placeAt beat)).toNat + s.beats.toNat := by
    rw [hstart, exactSum_take_succ hs]
  have hlater : exactSum ((t.stays.map Stay.beats).take (MarchingDrill.placeAt t.ends beat + 1)) ≤
      exactSum ((t.stays.map Stay.beats).take (t.placeAt beat + 1)) :=
    exactSum_take_mono _ (Nat.succ_le_succ hfirst)
  rw [← hend]
  have hlate : value beat ≤ (exactSum ((t.stays.map Stay.beats).take
      (MarchingDrill.placeAt t.ends beat + 1)) * one : Nat) + 2 * slackUnits :=
    le_end hx hfit (hfirst.trans_lt hlt)
  have hmul := Nat.mul_le_mul_right one hlater
  exact hlate.trans (by omega)

theorem poseAt?_of_le (hx : IsBeat beat)
    (hle : value beat ≤ (t.total.toNat * one : Nat)) :
    t.poseAt? beat = t.stays[t.placeAt beat]?.bind fun s =>
      s.segment.poseAt? (beat - (startAt t.ends (t.placeAt beat)).toFloat) := by
  -- a beat that the test puts behind the show lies behind it in units too
  have hguard : (beat.isNaN || beat < 0 || t.total.toFloat + beatSlack < beat) = false := by
    rw [hx.not_isNaN_or_neg, Bool.false_or]
    refine decide_eq_false ?_
    intro hpast
    exact absurd hle (Int.not_le.mpr (hx.lt_of_past t.total hpast))
  simp only [poseAt?, hguard, Bool.false_eq_true, if_false]

theorem total_toFloat (hfit : exactSum (t.stays.map Stay.beats) < 2 ^ 32) :
    value t.total.toFloat = (exactSum (t.stays.map Stay.beats) * one : Nat) := by
  rw [(value_toFloat t.total).2, total, ends, toNat_lastEnd hfit]

section Within

variable (hfit : exactSum (t.stays.map Stay.beats) < 2 ^ 32)
  (hfull : ∀ s ∈ t.stays, s.Full) (hzero : 0 ≤ beat) (htotal : beat ≤ t.total.toFloat)
include hfit hfull hzero htotal

theorem poseAt?_eq_none_iff (hpos : 0 < exactSum (t.stays.map Stay.beats)) :
    t.poseAt? beat = none ↔ t.Overruns beat := by
  have hx : IsBeat beat := .of_le hzero htotal
  have htotal' : value beat ≤ value t.total.toFloat :=
    (le_iff hx.finite (value_toFloat _).1).mp htotal
  have hle : value beat ≤ (exactSum (t.stays.map Stay.beats) * one : Nat) := by
    rwa [← total_toFloat hfit]
  obtain ⟨s, hs⟩ : ∃ s, t.stays[t.placeAt beat]? = some s :=
    ⟨_, List.getElem?_eq_getElem (placeAt_lt_length hx hfit hpos hle)⟩
  have hsfull : s.Full := hfull s (List.mem_of_getElem? hs)
  obtain ⟨hbeat, -, -⟩ := stay_under_way hx hfit hs
  rw [(value_toFloat t.total).2] at htotal'
  rw [poseAt?_of_le hx htotal', Overruns]
  simp only [hs, Option.bind_some, Option.some.injEq, exists_eq_left']
  exact Segment.poseAt?_eq_none_iff hbeat hsfull.fits (hsfull.commands_ne_nil (beats_ne_zero hs))

theorem Overruns.exists_end (h : t.Overruns beat) :
    ∃ e ∈ t.commandEnds, e.toFloat < beat ∧ beat - e.toFloat ≤ 2e-9 := by
  have hx : IsBeat beat := .of_le hzero htotal
  obtain ⟨s, hs, hover⟩ := h
  have hsfull : s.Full := hfull s (List.mem_of_getElem? hs)
  obtain ⟨hbeat, hvalue, hlate⟩ := stay_under_way hx hfit hs
  obtain ⟨S, hS⟩ : ∃ S, startAt t.ends (t.placeAt beat) = S := ⟨_, rfl⟩
  rw [hS] at hbeat hvalue hlate hover
  rw [Nat.add_mul] at hlate
  obtain ⟨e, he, hlt, hle⟩ := hover.exists_end hbeat hsfull.fits (by
    rw [hsfull, hvalue]
    omega)
  have hunits : (S + e).toNat * one = S.toNat * one + e.toNat * one := by
    rw [← Nat.add_mul, toNat_add_of_lt]
    refine Nat.lt_of_mul_lt_mul_right (a := one) ?_
    have htop := hx.le
    rw [Nat.add_mul]
    omega
  obtain ⟨hfinite, hend⟩ := value_toFloat (S + e)
  rw [hunits] at hend
  have hlt' : (((S + e).toNat * one : Nat) : Int) ≤ value beat := by
    rw [hunits]
    omega
  obtain ⟨hrest, hexact⟩ := hx.sub_toFloat (S + e) hlt'
  refine ⟨S + e, ?_, ?_, ?_⟩
  · refine List.mem_flatMap.mpr ⟨(s, t.placeAt beat), List.mem_zipIdx_iff_getElem?.mpr hs, ?_⟩
    exact List.mem_map.mpr ⟨e, he, by rw [hS]⟩
  · rw [lt_iff hfinite hx.finite, hend]
    omega
  · rw [le_iff hrest.finite value_two_slacks.1, hexact, hunits, value_two_slacks.2]
    omega

end Within

end Track

namespace Show

variable {s : Show} {settings : Settings} {dot : DotId}

theorem performSheets_full (hpad : settings.padUnusedBeats = true) {sheets : List SheetId}
    (hplaced : ∀ sheet ∈ sheets, (s.spot? sheet dot).isSome) (carried : Option Spot) :
    ∀ stay ∈ (s.performSheets settings dot carried sheets).1, stay.Full := by
  induction sheets generalizing carried with
  | nil =>
    intro stay hstay
    cases hstay
  | cons sheet sheets ih =>
    obtain ⟨hhere, hlater⟩ := List.forall_mem_cons.mp hplaced
    intro stay hstay
    rcases List.mem_cons.mp hstay with rfl | hstay
    · obtain ⟨start, hstart⟩ : ∃ start, carried.or (s.spot? sheet dot) = some start := by
        rw [← Option.isSome_iff_exists, Option.isSome_or, hhere, Bool.or_true]
      have hcourse := performFrom_course s settings dot sheet start
      have hadd := hcourse.totalBeats_add
      unfold Stay.Full
      rw [(performSheet_of_some settings hstart).1]
      split at hadd
      · exact hadd
      · rw [if_pos hpad] at hadd
        exact hadd
    · exact ih hlater _ stay hstay

/-- With closing on, a dot that has a spot on every sheet lacks a pose within the show exactly where
its command under way takes the beat to be past its end, and there a command ended before the beat,
by at most twice the slack. -/
theorem pose_missing_iff {names : Names} {doc : String} (hread : ofText names doc = .ok s)
    (hfit : exactSum (s.sheets.map Sheet.beats) < 2 ^ 32)
    (hpos : 0 < exactSum (s.sheets.map Sheet.beats)) (hpad : settings.padUnusedBeats = true)
    (hdot : dot ∈ s.dotIds) (hplaced : ∀ t ∈ s.sheets, (t.spot? dot).isSome) {beat : Float}
    (hzero : 0 ≤ beat) (htotal : beat ≤ (s.perform settings).total.toFloat) :
    ∃ track, (s.perform settings).track? dot = some track ∧
      ((s.perform settings).poseAt? dot beat = none ↔ track.Overruns beat) ∧
      (track.Overruns beat →
        ∃ e ∈ track.commandEnds, e.toFloat < beat ∧ beat - e.toFloat ≤ 2e-9) := by
  have hvalid := validate_of_ofText hread
  have hsheets := sheetIds_nodup hvalid
  have htrack := track?_perform settings (dotIds_nodup hvalid) hdot
  have hbeats : (s.performSheets settings dot none s.sheetIds).1.map Stay.beats =
      s.sheets.map Sheet.beats := by
    rw [map_beats_performSheets, map_sheetBeats hsheets]
  have hspots : ∀ sheet ∈ s.sheetIds, (s.spot? sheet dot).isSome := by
    intro sheet hsheet
    obtain ⟨t, ht, rfl⟩ := List.mem_map.mp hsheet
    rw [spot?_of_mem hsheets ht]
    exact hplaced t ht
  have hfull := performSheets_full hpad hspots none
  have hsame : (s.perform settings).total =
      Track.total ⟨dot, (s.performSheets settings dot none s.sheetIds).1⟩ := by
    rw [perform_total, Track.total_eq_sum, map_beats_performSheets]
  rw [hsame] at htotal
  rw [← hbeats] at hfit hpos
  refine ⟨_, htrack, ?_, ?_⟩
  · rw [Performance.poseAt?, htrack, Option.bind_some]
    exact Track.poseAt?_eq_none_iff hfit hfull hzero htotal hpos
  · exact Track.Overruns.exists_end hfit hfull hzero htotal

/-- One dot that stops for 63 beats, for one beat more, and closes for the last one. -/
def stopsDocument : String :=
  "[\"u\",1,\"east\",[[\"A\"]],[[0,\"\",65,null,null,\x7b\"A\":[0,0]\x7d," ++
    "\x7b\"plain\":[\x7b\"type\":\"stop\",\"duration\":63\x7d," ++
    "\x7b\"type\":\"stop\",\"duration\":1\x7d]\x7d]]]"

theorem pose_missing_behind_sixtyFour : ∃ s, ofText (.same "c") stopsDocument = .ok s ∧
    0 ≤ (64.000000001 : Float) ∧ 64.000000001 ≤ (s.perform .standard).total.toFloat ∧
    (s.perform .standard).poseAt? ⟨"A"⟩ 64.000000001 = none ∧
    ∃ track, (s.perform .standard).track? ⟨"A"⟩ = some track ∧ track.Overruns 64.000000001 := by
  have hrun : (ofText (.same "c") stopsDocument).toOption.any (fun s => decide
      (s.sheets.map Sheet.beats = [65] ∧ ⟨"A"⟩ ∈ s.dotIds ∧
        (∀ t ∈ s.sheets, (t.spot? ⟨"A"⟩).isSome) ∧
        64.000000001 ≤ (s.perform .standard).total.toFloat ∧
        (s.perform .standard).poseAt? ⟨"A"⟩ 64.000000001 = none)) = true := by
    decide +kernel
  obtain ⟨s, hread, hfacts⟩ := exists_ok_of_any hrun
  obtain ⟨hbeats, hdot, hplaced, htotal, hnone⟩ := of_decide_eq_true hfacts
  have hsum : exactSum (s.sheets.map Sheet.beats) = 65 := by
    rw [hbeats]
    rfl
  have hzero : 0 ≤ (64.000000001 : Float) := by decide +kernel
  obtain ⟨track, htrack, hiff, -⟩ := pose_missing_iff hread (by rw [hsum]; decide)
    (by rw [hsum]; decide) rfl hdot hplaced hzero htotal
  exact ⟨s, hread, hzero, htotal, hnone, track, htrack, hiff.mp hnone⟩

end Show

end MarchingDrill
