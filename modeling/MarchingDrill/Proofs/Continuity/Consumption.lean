import MarchingDrill.Proofs.Continuity.Legs

/-! Consumption: how many beats each continuity takes. Those that head for the next sheet take all
or nothing, marches and stops what they need of what there is, and a two-step waits in proportion to
the dot's place in line before its parts take what is left. -/

namespace MarchingDrill

open Numeric Binary64

theorem totalBeats_append (cs ds : List Command) :
    totalBeats (cs ++ ds) = totalBeats cs + totalBeats ds := by
  rw [totalBeats, List.map_append, exactSum_append]
  rfl

section Parts

variable {cue : Cue} (o : Options)

theorem Options.totalBeats_hold (markTime : Bool) (beats : UInt32) (cue : Cue) :
    totalBeats (o.hold markTime beats cue).commands = beats.toNat := by
  unfold hold
  split
  · next h =>
    rw [h]
    rfl
  · rfl

theorem Options.cue_hold (markTime : Bool) {beats : UInt32} (h : beats ≤ cue.beats) :
    (o.hold markTime beats cue).cue = ⟨cue.spot, cue.beats - beats⟩ := by
  unfold hold
  split
  · next hzero =>
    rw [hzero, UInt32.sub_zero]
    rfl
  · exact congrArg (Cue.mk cue.spot) (less_of_le h)

theorem Options.totalBeats_settle (ending : Ending) {p : Passage} (h : p.From cue) :
    totalBeats (o.settle ending p).commands = cue.beats.toNat := by
  unfold settle Passage.andThen
  rw [totalBeats_append]
  exact (congrArg (totalBeats p.commands + ·) (o.totalBeats_hold ..)).trans h.totalBeats_add

theorem Gait.totalBeats_legTo (g : Gait) (s : Spot) (cue : Cue) :
    totalBeats (g.legTo s cue).commands =
      (if cue.spot.steps s == 0 then 0 else min (g.beats ⟨cue.spot, s⟩) cue.beats).toNat := by
  rcases eq_or_ne cue.beats 0 with hzero | hbeats
  · have hnone : g.legTo s cue = .rest cue := by rw [legTo, hzero, leg?_of_no_beats]; rfl
    have hmin : min (g.beats ⟨cue.spot, s⟩) 0 = 0 := UInt32.le_zero_iff.mp Std.min_le_right
    rw [hnone, hzero, hmin, ite_self]
    rfl
  · cases h : cue.spot.steps s == 0 with
    | true =>
      rw [legTo, leg?_of_no_length h]
      rfl
    | false =>
      rw [legTo, if_neg Bool.false_ne_true]
      rcases UInt32.le_or_lt (g.beats ⟨cue.spot, s⟩) cue.beats with hfits | hshort
      · rw [leg?_of_fits h hbeats hfits]
        exact congrArg UInt32.toNat (if_pos hfits).symm
      · rw [leg?_of_short h hbeats hshort]
        exact congrArg UInt32.toNat (if_neg (UInt32.not_le.mpr hshort)).symm

end Parts

def Figure.headsForNext : Figure → Bool
  | even | fountain .. | diagonal .. | grapevine _ => true
  | stop .. | forward .. | gate .. | counterMarch .. | followLeader .. => false

def Figure.beatsTaken (f : Figure) (dot : DotId) (scene : Scene) (o : Options) (cue : Cue) :
    UInt32 :=
  match f with
  | stop _ duration | counterMarch _ duration => min (duration.getD cue.beats) cue.beats
  | forward steps direction =>
    let (ux, uy) := Bearing.unit direction.bearing
    let length := cue.spot.steps (cue.spot.shift (ux * steps.toFloat) (uy * steps.toFloat))
    if length == 0 then 0 else min (beatsForSteps length o.beatsPerStep) cue.beats
  | even | fountain .. | diagonal .. | grapevine _ =>
    if (scene.next dot).isSome then cue.beats else 0
  | gate .. | followLeader .. => cue.beats

theorem Figure.totalBeats_perform {f : Figure} {dot : DotId} {scene : Scene} {o : Options}
    {cue : Cue} {p : Passage} (h : f.perform dot scene o cue = .ok p) :
    totalBeats p.commands = (f.beatsTaken dot scene o cue).toNat := by
  cases f with
  | stop markTime duration =>
    cases h
    exact o.totalBeats_hold ..
  | forward steps direction =>
    cases h
    rw [o.march_cons, Passage.andThen, totalBeats_append]
    exact o.gait.totalBeats_legTo _ cue
  | even =>
    cases h
    rw [beatsTaken]
    cases scene.next dot with
    | none => rfl
    | some target =>
      dsimp only
      split
      · next hzero =>
        rw [hzero]
        rfl
      · rfl
  | fountain along ending | diagonal along ending =>
    cases h
    rw [beatsTaken]
    cases scene.next dot with
    | none => rfl
    | some target => exact o.totalBeats_settle ending (o.march_from ..)
  | grapevine ending =>
    cases h
    rw [beatsTaken]
    cases scene.next dot with
    | none => rfl
    | some target =>
      refine o.totalBeats_settle ending ?_
      split
      · exact Passage.rest_from cue
      · exact o.march_from ..
  | gate degrees clockwise center =>
    cases h
    split
    · next hzero =>
      rw [beatsTaken, hzero]
      rfl
    · exact congrArg UInt32.toNat (Arc.about_duration ..)
  | counterMarch order duration =>
    obtain ⟨loop, w, hw, rfl⟩ := exists_circle h
    obtain ⟨hafford, hleft⟩ := hw ▸ Gait.circle_within ⟨o.asked, o.beatsPerStep⟩ loop
      (order.firstTarget dot) 0 0 (cue.granted duration) cue
    rw [Passage.andThen, totalBeats_append, o.totalBeats_hold, ← hleft]
    exact hafford.totalBeats_add
  | followLeader order path =>
    obtain ⟨spots, rfl⟩ := exists_route h
    exact o.totalBeats_settle .markTime (o.march_from ..)

theorem Figure.perform_of_no_next {f : Figure} {dot : DotId} {scene : Scene} {o : Options}
    {cue : Cue} {p : Passage} (heads : f.headsForNext = true) (hnext : scene.next dot = none)
    (h : f.perform dot scene o cue = .ok p) : p = .rest cue := by
  cases f with
  | stop | forward | gate | counterMarch | followLeader => cases heads
  | even | fountain | diagonal | grapevine =>
    cases h
    rw [hnext]

theorem toNat_beatsForSteps_toFloat (n beatsPerStep : UInt32) :
    (beatsForSteps n.toFloat beatsPerStep).toNat =
      min (n.toNat * (max beatsPerStep 1).toNat) (2 ^ 32 - 1) := by
  obtain ⟨hfinite, k, hk, hexact, hlarge⟩ := value_mul_counts n (one_le_max_one beatsPerStep)
  rw [beatsForSteps, abs_toFloat, toNat_countUp_snap hfinite hk]
  omega

theorem toNat_min (a b : UInt32) : (min a b).toNat = min a.toNat b.toNat := by
  change (if a ≤ b then a else b).toNat = _
  split
  · next h => exact (min_eq_left (UInt32.le_iff_toNat_le.mp h)).symm
  · next h => exact (min_eq_right (UInt32.le_of_lt (UInt32.not_le.mp h))).symm

theorem Options.waitBeats_le (o : Options) (order : LineUp) (dot : DotId) (cue : Cue) :
    o.waitBeats order dot cue ≤ cue.beats := Std.min_le_right

theorem Options.toNat_waitBeats (o : Options) {order : LineUp} {dot : DotId}
    (hslot : order.slot dot < 2 ^ 31) (cue : Cue) :
    (o.waitBeats order dot cue).toNat =
      min (2 * order.slot dot * (max o.beatsPerStep 1).toNat) cue.beats.toNat := by
  have hsteps : (UInt32.ofNat (order.slot dot) * stepsPerSlot).toNat = 2 * order.slot dot := by
    rw [UInt32.toNat_mul, UInt32.toNat_ofNat_of_lt' (Nat.lt_trans hslot (by decide))]
    change order.slot dot * 2 % 2 ^ 32 = _
    omega
  have hbeats := cue.beats.toNat_lt
  rw [waitBeats, toNat_min, toNat_beatsForSteps_toFloat, hsteps]
  omega

namespace Continuity

/-- What each continuity takes. Its beats and those that it leaves make up the beats of the cue, and
a figure takes what its kind does. A two-step waits two steps for each dot in front, as long as the
beats last, and then takes what its parts do from there. Without beats, and on the way to a spot on
the next sheet that is not set, nothing happens. -/
theorem takes_exactly {dot : DotId} {c : Continuity} {scene : Scene} {cue : Cue} {p : Passage}
    (h : c.perform dot scene cue = .ok p) :
    totalBeats p.commands + p.cue.beats.toNat = cue.beats.toNat ∧
    (∀ (tag : Tag) (f : Figure), c = .figure tag f →
      totalBeats p.commands = (f.beatsTaken dot scene (tag.options scene.defaults) cue).toNat) ∧
    (∀ (tag : Tag) (order : LineUp) (markTime : Bool) (parts : List Continuity),
      c = .twoStep tag order markTime parts → order.slot dot < 2 ^ 31 →
      ∃ (inner : Scene) (wait : UInt32) (q : Passage),
        scene.nested (tag.options scene.defaults) = .ok inner ∧
        wait.toNat = min (2 * order.slot dot * (tag.options scene.defaults).beatsPerStep.toNat)
          cue.beats.toNat ∧
        performAll dot parts inner ⟨cue.spot, cue.beats - wait⟩ = .ok q ∧
        p = ((tag.options scene.defaults).hold markTime wait cue).andThen q ∧
        totalBeats p.commands = wait.toNat + totalBeats q.commands) ∧
    (cue.beats = 0 ∨ (scene.next dot = none ∧
        ∃ (tag : Tag) (f : Figure), c = .figure tag f ∧ f.headsForNext = true) →
      p = .rest cue) := by
  refine ⟨(perform_from h).totalBeats_add, ?_, ?_, ?_⟩
  · rintro tag f rfl
    exact Figure.totalBeats_perform h
  · rintro tag order markTime parts rfl hslot
    rw [perform] at h
    split at h
    · cases h
    · obtain ⟨inner, hinner, h⟩ := exists_of_bind_eq_ok h
      obtain ⟨q, hq, hp⟩ := exists_of_bind_eq_ok h
      cases hp
      have hwait := (tag.options scene.defaults).toNat_waitBeats hslot cue
      have hpace : max (tag.options scene.defaults).beatsPerStep 1 =
          (tag.options scene.defaults).beatsPerStep := max_max_one _
      rw [hpace] at hwait
      rw [Options.cue_hold _ _ (Options.waitBeats_le ..)] at hq
      refine ⟨inner, _, q, hinner, hwait, hq, rfl, ?_⟩
      rw [Passage.andThen, totalBeats_append, Options.totalBeats_hold]
  · rintro (hzero | ⟨hnext, tag, f, rfl, heads⟩)
    · exact perform_of_no_beats hzero h
    · exact Figure.perform_of_no_next heads hnext h

theorem takes_exactly_of_second_in_line :
    ∃ (p q : Passage) (inner : Scene),
      perform ⟨"B"⟩ (.twoStep plainTag [⟨"A"⟩, ⟨"B"⟩] true
        [.figure plainTag (.stop true (some 5))]) pairScene ⟨⟨0, 4⟩, 16⟩ = .ok p ∧
      p.commands.map Command.duration = [2, 5] ∧
      performAll ⟨"B"⟩ [.figure plainTag (.stop true (some 5))] inner
        ⟨⟨0, 4⟩, 14⟩ = .ok q ∧
      totalBeats p.commands = 2 + totalBeats q.commands := by
  have hrun : (perform ⟨"B"⟩ (.twoStep plainTag [⟨"A"⟩, ⟨"B"⟩] true
      [.figure plainTag (.stop true (some 5))]) pairScene
      ⟨⟨0, 4⟩, 16⟩).toOption.any (fun p => p.commands.map Command.duration = [2, 5]) = true := by
    decide +kernel
  obtain ⟨p, hp, hdurations⟩ := exists_ok_of_any hrun
  obtain ⟨inner, wait, q, -, hwait, hq, -, htotal⟩ :=
    (takes_exactly hp).2.2.1 _ _ _ _ rfl (by decide)
  obtain rfl : wait = 2 := UInt32.toNat_inj.mp hwait
  exact ⟨p, q, inner, hp, of_decide_eq_true hdurations, hq, htotal⟩

end Continuity

end MarchingDrill
