import MarchingDrill.Proofs.Continuity.Pace
import MarchingDrill.Proofs.Performance.Likeness
import MarchingDrill.Proofs.Show.Edits
import MarchingDrill.Proofs.Show.Violations

/-! Inheritance: sheets that leave an option out take it from the show, and continuities take their
paces from what lies around them. A show in which all of these are written out performs alike. -/

namespace MarchingDrill

namespace OrderedMap

variable {κ α β : Type} [DecidableEq κ]

theorem get?_map (m : OrderedMap κ α) (f : κ → α → β) (k : κ) :
    (m.map f).get? k = (m.get? k).map (f k) := by
  have hlookup : ∀ es : List (κ × α),
      (es.map fun e => (e.1, f e.1 e.2)).lookup k = (es.lookup k).map (f k) := by
    intro es
    induction es with
    | nil => rfl
    | cons e es ih =>
      rw [List.map_cons, List.lookup_cons, List.lookup_cons]
      cases hk : k == e.1 with
      | true =>
        rw [eq_of_beq hk]
        rfl
      | false => exact ih
  exact hlookup m.entries

omit [DecidableEq κ] in
theorem mem_values_map {m : OrderedMap κ α} {f : κ → α → β} {b : β} (h : b ∈ (m.map f).values) :
    ∃ k, ∃ a ∈ m.values, f k a = b := by
  rw [values, map, List.map_map] at h
  obtain ⟨e, he, rfl⟩ := List.mem_map.mp h
  exact ⟨e.1, e.2, List.mem_map_of_mem he, rfl⟩

end OrderedMap

def Sheet.pace (beatsPerStep : UInt32) (t : Sheet) : UInt32 := t.beatsPerStep.getD beatsPerStep

def Sheet.spelledOut (beatsPerStep : UInt32) (facing : Facing) (t : Sheet) : Sheet :=
  { t with
    beatsPerStep := some (t.pace beatsPerStep)
    facing := some (t.facing.getD facing)
    continuities := t.continuities.map fun _ list =>
      Continuity.spelledOutAll (t.pace beatsPerStep) list }

/-- Everything is set that a continuity within the sheet or the sheet itself could inherit from the
show, facings of continuities aside. -/
structure Sheet.Explicit (t : Sheet) : Prop where
  pace : t.beatsPerStep.isSome
  facing : t.facing.isSome
  continuities : ∀ list ∈ t.continuities.values, ∀ c ∈ list, ∀ d : Continuity, d.Within c →
    d.tag.beatsPerStep.isSome

namespace Continuity

mutual

theorem explicit_of_mem_walk_spelledOut {d : Continuity} : ∀ {pace : UInt32} {c : Continuity},
    d ∈ (spelledOut pace c).walk → d.tag.beatsPerStep.isSome
  | pace, .figure tag f, h => by
    cases List.mem_singleton.mp h
    rfl
  | pace, .twoStep tag order markTime parts, h => by
    rw [spelledOut, walk, List.mem_cons] at h
    rcases h with rfl | hpart
    · rfl
    · exact explicit_of_mem_walkAll_spelledOutAll hpart

theorem explicit_of_mem_walkAll_spelledOutAll {d : Continuity} :
    ∀ {pace : UInt32} {cs : List Continuity},
    d ∈ walkAll (spelledOutAll pace cs) → d.tag.beatsPerStep.isSome
  | _, [], h => by cases h
  | pace, c :: cs, h => by
    rw [spelledOutAll, walkAll, List.mem_append] at h
    rcases h with hc | hcs
    · exact explicit_of_mem_walk_spelledOut hc
    · exact explicit_of_mem_walkAll_spelledOutAll hcs

end

end Continuity

namespace Sheet

variable (beatsPerStep : UInt32) (facing : Facing) (t : Sheet)

theorem explicit_spelledOut : (t.spelledOut beatsPerStep facing).Explicit := by
  refine ⟨rfl, rfl, ?_⟩
  intro list hlist c hc d hd
  obtain ⟨-, cs, -, rfl⟩ := OrderedMap.mem_values_map hlist
  exact Continuity.explicit_of_mem_walkAll_spelledOutAll
    (Continuity.mem_walkAll_iff.mpr ⟨c, hc, hd⟩)

theorem list_spelledOut (symbol : Symbol) : (t.spelledOut beatsPerStep facing).list symbol =
    Continuity.spelledOutAll (t.pace beatsPerStep) (t.list symbol) := by
  rw [list, list, spelledOut, OrderedMap.get?_map]
  cases t.continuities.get? symbol <;> rfl

end Sheet

namespace Show

def spelledOut (s : Show) : Show :=
  { s with sheets := s.sheets.map (Sheet.spelledOut s.beatsPerStep s.facing) }

section SpelledOut

variable (s : Show) (sheet : SheetId) (dot : DotId)

theorem sheetIds_spelledOut : s.spelledOut.sheetIds = s.sheetIds := List.map_map

theorem sheet?_spelledOut : s.spelledOut.sheet? sheet =
    (s.sheet? sheet).map (Sheet.spelledOut s.beatsPerStep s.facing) := List.find?_map ..

theorem nextSheet?_spelledOut : s.spelledOut.nextSheet? sheet =
    (s.nextSheet? sheet).map (Sheet.spelledOut s.beatsPerStep s.facing) := by
  rw [nextSheet?, nextSheet?, spelledOut, List.dropWhile_map, List.getElem?_map]
  rfl

theorem sheetBeats_spelledOut : s.spelledOut.sheetBeats sheet = s.sheetBeats sheet := by
  rw [sheetBeats, sheetBeats, sheet?_spelledOut, Option.elim_map]
  rfl

theorem spot?_spelledOut : s.spelledOut.spot? sheet = s.spot? sheet := by
  funext dot
  rw [spot?, spot?, sheet?_spelledOut, Option.bind_map]
  rfl

theorem nextSpot?_spelledOut : s.spelledOut.nextSpot? sheet = s.nextSpot? sheet := by
  funext dot
  rw [nextSpot?, nextSpot?, nextSheet?_spelledOut, Option.bind_map]
  simp only [spot?_spelledOut]
  rfl

theorem defaults_spelledOut : s.spelledOut.defaults sheet = s.defaults sheet := by
  rw [defaults, defaults, sheet?_spelledOut]
  cases s.sheet? sheet <;> rfl

theorem scene_spelledOut : s.spelledOut.scene sheet = s.scene sheet := by
  rw [scene, scene, spot?_spelledOut, nextSpot?_spelledOut, defaults_spelledOut]

theorem symbol?_spelledOut : s.spelledOut.symbol? sheet dot = s.symbol? sheet dot := by
  rw [symbol?, symbol?, sheet?_spelledOut, Option.bind_map]
  rfl

def pace : UInt32 := (s.sheet? sheet).elim s.beatsPerStep (·.pace s.beatsPerStep)

theorem defaults_beatsPerStep : (s.defaults sheet).beatsPerStep = max (s.pace sheet) 1 := by
  rw [defaults, pace]
  cases s.sheet? sheet <;> rfl

theorem listFor_spelledOut : s.spelledOut.listFor sheet dot =
    Continuity.spelledOutAll (s.pace sheet) (s.listFor sheet dot) := by
  rw [listFor, listFor, symbol?_spelledOut, pace]
  cases s.symbol? sheet dot with
  | none => rfl
  | some symbol =>
    rw [Option.elim_some, Option.elim_some, list, list, sheet?_spelledOut]
    cases s.sheet? sheet with
    | none => rfl
    | some t => exact t.list_spelledOut ..

theorem alikeOn_spelledOut : s.spelledOut.AlikeOn s dot sheet := by
  refine ⟨congrFun (s.spot?_spelledOut sheet) dot, congrFun (s.nextSpot?_spelledOut sheet) dot, ?_,
    s.sheetBeats_spelledOut sheet, s.defaults_spelledOut sheet, ?_⟩
  · rw [nextSheet?_spelledOut, Option.isSome_map]
  · intro cue
    rw [scene_spelledOut, listFor_spelledOut]
    exact Continuity.performAll_spelledOut _ cue (s.defaults_beatsPerStep sheet)

theorem perform_spelledOut (settings : Settings) :
    s.spelledOut.perform settings = s.perform settings :=
  perform_congr settings rfl s.sheetIds_spelledOut (fun sheet _ => s.sheetBeats_spelledOut sheet)
    fun dot _ sheet _ => s.alikeOn_spelledOut sheet dot

end SpelledOut

def emissionsFrom (s : Show) (settings : Settings) (dot : DotId) (sheet : SheetId) (start : Spot) :
    List Emission :=
  let scene := s.scene sheet
  let cue : Cue := ⟨start, s.sheetBeats sheet⟩
  match Continuity.emitAll dot [] (s.listFor sheet dot) scene cue with
  | .error _ => Emission.each [] (closing scene.defaults cue)
  | .ok (es, last) =>
    es ++ Emission.each [] (if settings.padUnusedBeats then closing scene.defaults last else [])

section Emissions

variable {s : Show}

theorem map_command_emissionsFrom (settings : Settings) (dot : DotId) (sheet : SheetId)
    (start : Spot) : (s.emissionsFrom settings dot sheet start).map Emission.command =
      (s.performFrom settings dot sheet start).commands := by
  have hbook : (Continuity.emitAll dot [] (s.listFor sheet dot) (s.scene sheet)
      ⟨start, s.sheetBeats sheet⟩).map Emission.passageOf = _ := Continuity.passageOf_emitAll ..
  rw [emissionsFrom, performFrom, ← hbook]
  cases Continuity.emitAll dot [] (s.listFor sheet dot) (s.scene sheet)
      ⟨start, s.sheetBeats sheet⟩ with
  | error f => exact Emission.map_command_each _ _
  | ok book =>
    simp only [List.map_append, Emission.map_command_each]
    rfl

theorem closing_beatsPerStep {d : Defaults} {cue : Cue} :
    ∀ c ∈ closing d cue, c.beatsPerStep = max d.beatsPerStep 1 := by
  unfold closing
  split
  · nofun
  · exact List.forall_mem_singleton.mpr rfl

theorem sound_emissionsFrom (settings : Settings) (dot : DotId) (sheet : SheetId) (start : Spot) :
    ∀ e ∈ s.emissionsFrom settings dot sheet start,
      e.command.beatsPerStep = max (paceAt (s.pace sheet) e.source) 1 ∧
        ((e.source = [] ∧ ∃ cue, e.command ∈ closing (s.defaults sheet) cue) ∨
          ∃ (place : Place) (c : Continuity),
            c.At place (s.listFor sheet dot) ∧ e.source = c.tag :: place.tags) := by
  have hdefaults := s.defaults_beatsPerStep sheet
  have hclosing : ∀ cue, ∀ e ∈ Emission.each [] (closing (s.defaults sheet) cue),
      e.command.beatsPerStep = max (paceAt (s.pace sheet) e.source) 1 ∧
        e.source = [] ∧ ∃ cue, e.command ∈ closing (s.defaults sheet) cue := by
    intro cue
    rw [Emission.each, List.forall_mem_map]
    intro c hc
    refine ⟨?_, rfl, cue, hc⟩
    rw [closing_beatsPerStep c hc]
    exact (congrArg (max · 1) hdefaults).trans (max_max_one _)
  rw [emissionsFrom]
  cases hbook : Continuity.emitAll dot [] (s.listFor sheet dot) (s.scene sheet)
      ⟨start, s.sheetBeats sheet⟩ with
  | error f => exact fun e he => (hclosing _ e he).imp_right .inl
  | ok book =>
    refine List.forall_mem_append.mpr ⟨?_, ?_⟩
    · intro e he
      obtain ⟨hpace, hsource⟩ := Continuity.sound_emitAll hdefaults hbook e he
      simp only [List.append_nil] at hsource
      exact ⟨hpace, .inr hsource⟩
    · intro e he
      split at he
      · exact (hclosing _ e he).imp_right .inl
      · cases he

end Emissions

section Valid

theorem one_le_paceAt {pace : UInt32} {source : List Tag} (hpace : 1 ≤ pace)
    (hsource : ∀ tag ∈ source, PaceValid tag.beatsPerStep) : 1 ≤ paceAt pace source := by
  induction source with
  | nil => exact hpace
  | cons tag source ih =>
    rw [List.forall_mem_cons] at hsource
    rw [paceAt_cons]
    cases hown : tag.beatsPerStep with
    | none => exact ih hsource.2
    | some n => exact hsource.1 n hown

theorem paceValid_of_at {c : Continuity} {place : Place} {cs : List Continuity}
    (hat : c.At place cs)
    (hall : ∀ d ∈ cs, ∀ e : Continuity, e.Within d → PaceValid e.tag.beatsPerStep) :
    ∀ tag ∈ c.tag :: place.tags, PaceValid tag.beatsPerStep := by
  induction hat with
  | behind before after =>
    exact List.forall_mem_singleton.mpr
      (hall c (List.mem_append_right before List.mem_cons_self) c .self)
  | inside before tag order markTime at_parts after ih =>
    have htwo := hall _ (List.mem_append_right before List.mem_cons_self)
    rw [Place.tags, ← List.cons_append, List.forall_mem_append]
    exact ⟨ih fun d hd e he => htwo e (.part hd he), List.forall_mem_singleton.mpr (htwo _ .self)⟩

variable {s : Show} {t : Sheet}

theorem pace_of_mem (hnodup : s.sheetIds.Nodup) (ht : t ∈ s.sheets) :
    s.pace t.id = t.pace s.beatsPerStep := by
  rw [pace, sheet?_of_mem hnodup ht, Option.elim_some]

theorem Valid.one_le_pace (h : s.Valid) (ht : t ∈ s.sheets) : 1 ≤ t.pace s.beatsPerStep := by
  rw [Sheet.pace]
  cases hown : t.beatsPerStep with
  | none => exact h.pace
  | some n => exact (h.sheets t ht).pace n hown

theorem Valid.paceValid_listFor (h : s.Valid) (ht : t ∈ s.sheets) (dot : DotId) :
    ∀ c ∈ s.listFor t.id dot, ∀ d : Continuity, d.Within c → PaceValid d.tag.beatsPerStep := by
  rw [listFor_of_mem h.sheetIds ht]
  cases t.positions.get? dot with
  | none => nofun
  | some placement =>
    intro c hc d hd
    obtain ⟨e, he, -, hmem⟩ := Sheet.mem_of_mem_list hc
    exact ((h.sheets t ht).continuities e.2 (List.mem_map_of_mem he) c hmem d hd).pace

end Valid

/-- A show that has been read performs alike when everything is written out that its sheets take
from it and every pace that continuities take from what is around them. So each command goes at the
pace of the nearest of its continuity and the two-steps around that sets one, else at that of the
sheet and else of the show, and a dot closes at the pace of the sheet. -/
theorem options_inherited {names : Names} {doc : String} {s : Show} (settings : Settings)
    (hread : ofText names doc = .ok s) :
    (∀ t ∈ s.spelledOut.sheets, t.Explicit) ∧
    s.spelledOut.perform settings = s.perform settings ∧
    ∀ dot ∈ s.dotIds, ∃ track, (s.perform settings).track? dot = some track ∧
      ∀ (i : Nat) (t : Sheet), s.sheets[i]? = some t → ∃ start g,
        (s.starts settings dot none s.sheetIds)[i]? = some start ∧
        track.segments[i]? = some g ∧ g.sheet = t.id ∧
        g.commands =
          (start.elim [] (s.emissionsFrom settings dot t.id)).map Emission.command ∧
        ∀ e ∈ start.elim [] (s.emissionsFrom settings dot t.id),
          ((e.source = [] ∧ ∃ cue, e.command ∈ closing (s.defaults t.id) cue) ∨
            ∃ (place : Place) (c : Continuity),
              c.At place (s.listFor t.id dot) ∧ e.source = c.tag :: place.tags) ∧
          e.command.beatsPerStep = paceAt (t.pace s.beatsPerStep) e.source ∧
          1 ≤ e.command.beatsPerStep := by
  have haccepted := validate_of_ofText hread
  have hvalid : s.Valid := s.fault?_eq_none_iff.mp (fault?_of_validate haccepted)
  refine ⟨List.forall_mem_map.mpr fun t _ => t.explicit_spelledOut _ _,
    s.perform_spelledOut settings, ?_⟩
  intro dot hdot
  refine ⟨_, track?_perform settings hvalid.dots hdot, ?_⟩
  intro i t ht
  have hmem := List.mem_of_getElem? ht
  obtain ⟨before, v⟩ := exists_visit settings dot hvalid.sheetIds none (getElem?_sheetIds ht)
  refine ⟨_, _, v.start, by rw [Track.segments, List.getElem?_map, v.stay]; rfl, rfl, ?_, ?_⟩
  · cases hstart : before.or (s.spot? t.id dot) with
    | none => exact congrArg SheetResult.commands (performSheet_of_none hstart)
    | some spot =>
      rw [Option.elim_some, map_command_emissionsFrom]
      exact (performSheet_of_some settings hstart).1
  · cases before.or (s.spot? t.id dot) with
    | none => nofun
    | some spot =>
      intro e he
      obtain ⟨hpace, hsource⟩ := sound_emissionsFrom settings dot t.id spot e he
      rw [pace_of_mem hvalid.sheetIds hmem] at hpace
      have hone : 1 ≤ paceAt (t.pace s.beatsPerStep) e.source := by
        refine one_le_paceAt (hvalid.one_le_pace hmem) ?_
        rcases hsource with ⟨hclosing, -⟩ | ⟨place, c, hat, hsource⟩
        · rw [hclosing]
          nofun
        · rw [hsource]
          exact paceValid_of_at hat (hvalid.paceValid_listFor hmem dot)
      rw [max_one_of_le hone] at hpace
      exact ⟨hsource, hpace, hpace ▸ hone⟩

/-- A show of two beats per step, with a two-step of three. The second dot waits in it for two
steps. -/
def pacedTwoStepDocument : String :=
  "[\"u\",2,\"east\",[[\"A\"],[\"B\"]],[[0,\"\",16,null,null," ++
    "\x7b\"A\":[0,0],\"B\":[4,0]\x7d," ++
    "\x7b\"plain\":[\x7b\"type\":\"two\",\"beatsPerStep\":3,\"order\":[\"A\",\"B\"]," ++
    "\"continuities\":[\x7b\"type\":\"stop\",\"duration\":2\x7d]\x7d," ++
    "\x7b\"type\":\"stop\",\"duration\":2\x7d]\x7d]]]"

theorem options_inherited_in_two_step : ∃ s, ofText (.same "c") pacedTwoStepDocument = .ok s ∧
    s.sheets.map Sheet.beatsPerStep = [none] ∧
    s.spelledOut.sheets.map Sheet.beatsPerStep = [some 2] ∧
    ∃ g, ((s.spelledOut.perform .standard).track? ⟨"B"⟩).bind (·.segments[0]?) = some g ∧
      g.commands.map Command.beatsPerStep = [3, 3, 2, 2] := by
  have hrun : (ofText (.same "c") pacedTwoStepDocument).toOption.any (fun s => decide
      (s.dotIds = [⟨"A"⟩, ⟨"B"⟩] ∧ s.sheets.map Sheet.beatsPerStep = [none] ∧
        s.spelledOut.sheets.map Sheet.beatsPerStep = [some 2] ∧
        ∃ t ∈ s.sheets[0]?, t.pace s.beatsPerStep = 2 ∧
          (s.starts .standard ⟨"B"⟩ none s.sheetIds)[0]? = some (some ⟨4, 0⟩) ∧
          (s.emissionsFrom .standard ⟨"B"⟩ t.id ⟨4, 0⟩).map (paceAt 2 ·.source) =
            [3, 3, 2, 2])) = true := by
    decide +kernel
  obtain ⟨s, hread, hfacts⟩ := exists_ok_of_any hrun
  obtain ⟨hdots, hleft, hwritten, t, ht, hpace, hspot, hsources⟩ := of_decide_eq_true hfacts
  obtain ⟨-, hsame, htracks⟩ := options_inherited .standard hread
  obtain ⟨track, htrack, hsheets⟩ :=
    htracks ⟨"B"⟩ (hdots ▸ List.mem_cons_of_mem _ List.mem_cons_self)
  obtain ⟨start, g, hstart, hg, -, hcommands, hpaces⟩ := hsheets 0 t ht
  obtain rfl : start = some ⟨4, 0⟩ := Option.some.inj (hstart.symm.trans hspot)
  refine ⟨s, hread, hleft, hwritten, g, ?_, ?_⟩
  · rw [hsame, htrack, Option.bind_some, hg]
  · rw [hcommands, List.map_map, ← hsources]
    refine List.map_congr_left fun e he => ?_
    exact (hpaces e he).2.1.trans (by rw [hpace])

end Show

end MarchingDrill
