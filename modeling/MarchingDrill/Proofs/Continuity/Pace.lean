import MarchingDrill.Proofs.Continuity.Faults

/-! Pace: the beats per step of commands. A command goes at the pace that its continuity sets, else
at that of the nearest two-step around it that sets one, and last at the pace that the sheet gives.
So continuities may as well set these paces themselves. -/

namespace MarchingDrill

theorem one_le_max_one (n : UInt32) : 1 ≤ max n 1 := by
  change 1 ≤ if n ≤ 1 then 1 else n
  split
  · exact UInt32.le_refl 1
  · next h => exact UInt32.le_of_lt (UInt32.not_le.mp h)

theorem max_one_of_le {n : UInt32} (h : 1 ≤ n) : max n 1 = n := by
  change (if n ≤ 1 then 1 else n) = n
  split
  · next hle => exact UInt32.le_antisymm h hle
  · rfl

theorem max_max_one (n : UInt32) : max (max n 1) 1 = max n 1 := max_one_of_le (one_le_max_one n)

def Passage.AtPace (p : Passage) (pace : UInt32) : Prop := ∀ c ∈ p.commands, c.beatsPerStep = pace

section AtPace

variable {pace : UInt32}

theorem Passage.rest_atPace (cue : Cue) (pace : UInt32) : (rest cue).AtPace pace := nofun

theorem Passage.one_atPace (cue : Cue) {c : Command} (h : c.beatsPerStep = pace) :
    (one cue c).AtPace pace := List.forall_mem_singleton.mpr h

theorem Passage.AtPace.andThen {p q : Passage} (hp : p.AtPace pace) (hq : q.AtPace pace) :
    (p.andThen q).AtPace pace := List.forall_mem_append.mpr ⟨hp, hq⟩

theorem Options.hold_atPace (o : Options) (markTime : Bool) (beats : UInt32) (cue : Cue) :
    (o.hold markTime beats cue).AtPace (max o.beatsPerStep 1) := by
  unfold hold
  split
  · exact Passage.rest_atPace cue _
  · exact Passage.one_atPace cue rfl

theorem Options.settle_atPace (o : Options) (ending : Ending) {p : Passage}
    (h : p.AtPace (max o.beatsPerStep 1)) : (o.settle ending p).AtPace (max o.beatsPerStep 1) :=
  h.andThen (o.hold_atPace _ _ _)

namespace Gait

variable (g : Gait)

theorem leg?_beatsPerStep {g : Gait} {start target : Spot} {budget : UInt32} {m : Move}
    (h : g.leg? start target budget = some m) : m.beatsPerStep = max g.beatsPerStep 1 := by
  simp only [leg?] at h
  split at h
  · cases h
  · cases h
    rfl

theorem walk_atPace (spots : List Spot) (budget : UInt32) (cue : Cue) :
    (g.walk spots budget cue).passage.AtPace (max g.beatsPerStep 1) := by
  induction spots generalizing budget cue with
  | nil => exact Passage.rest_atPace cue _
  | cons s ss ih =>
    rw [walk]
    split
    · exact Passage.rest_atPace cue _
    · cases hm : g.leg? cue.spot s (min budget cue.beats) with
      | none => exact ih budget cue
      | some m => exact List.forall_mem_cons.mpr ⟨leg?_beatsPerStep hm, ih _ _⟩

theorem circle_atPace (loop : List Spot) (place idle still : Nat) (budget : UInt32) (cue : Cue) :
    (g.circle loop place idle still budget cue).passage.AtPace (max g.beatsPerStep 1) := by
  fun_induction circle g loop place idle still budget cue with
  | case1 place idle still budget cue _ target hm ih => exact ih
  | case2 place idle still budget cue _ target m hm ih =>
    exact List.forall_mem_cons.mpr ⟨leg?_beatsPerStep hm, ih⟩
  | case3 place idle still budget cue => exact Passage.rest_atPace cue _

end Gait

theorem Options.march_atPace (o : Options) (facing : Option Float) (spots : List Spot) (cue : Cue) :
    (o.march facing spots cue).AtPace (max o.beatsPerStep 1) := Gait.walk_atPace _ _ _ _

theorem Arc.about_beatsPerStep (start center : Spot) (degrees : Float)
    (duration beatsPerStep : UInt32) :
    (about start center degrees duration beatsPerStep).beatsPerStep = max beatsPerStep 1 := by
  unfold about
  split <;> rfl

theorem Figure.perform_atPace {f : Figure} {dot : DotId} {scene : Scene} {o : Options} {cue : Cue}
    {p : Passage} (h : f.perform dot scene o cue = .ok p) : p.AtPace (max o.beatsPerStep 1) := by
  cases f with
  | stop markTime duration =>
    cases h
    exact o.hold_atPace _ _ _
  | forward steps direction =>
    cases h
    exact o.march_atPace _ _ _
  | even =>
    cases h
    split
    · exact Passage.rest_atPace cue _
    · split
      · exact Passage.rest_atPace cue _
      · exact Passage.one_atPace cue rfl
  | fountain along ending | diagonal along ending =>
    cases h
    split
    · exact Passage.rest_atPace cue _
    · exact o.settle_atPace ending (o.march_atPace _ _ _)
  | grapevine ending =>
    cases h
    split
    · exact Passage.rest_atPace cue _
    · refine o.settle_atPace ending ?_
      split
      · exact Passage.rest_atPace cue _
      · exact o.march_atPace _ _ _
  | gate degrees clockwise center =>
    cases h
    split
    · exact Passage.rest_atPace cue _
    · exact Passage.one_atPace cue (Arc.about_beatsPerStep ..)
  | counterMarch order duration =>
    obtain ⟨loop, w, rfl, rfl⟩ := exists_circle h
    exact (Gait.circle_atPace _ _ _ _ _ _ _).andThen (o.hold_atPace _ _ _)
  | followLeader order path =>
    obtain ⟨spots, rfl⟩ := exists_route h
    exact o.settle_atPace .markTime (o.march_atPace _ _ _)

end AtPace

/-- A command and where it comes from: the tag of the continuity that made it, and behind it those
of the two-steps around that continuity, from the inside out. -/
structure Emission where
  source : List Tag
  command : Command

def Emission.each (source : List Tag) (cs : List Command) : List Emission := cs.map (⟨source, ·⟩)

def Emission.passageOf (book : List Emission × Cue) : Passage := ⟨book.1.map command, book.2⟩

theorem Emission.map_command_each (source : List Tag) (cs : List Command) :
    (each source cs).map command = cs := by
  rw [each, List.map_map]
  exact List.map_id cs

def paceAt (pace : UInt32) (source : List Tag) : UInt32 :=
  (source.findSome? Tag.beatsPerStep).getD pace

theorem paceAt_cons (pace : UInt32) (tag : Tag) (source : List Tag) :
    paceAt pace (tag :: source) = tag.beatsPerStep.getD (paceAt pace source) := by
  rw [paceAt, List.findSome?_cons]
  cases tag.beatsPerStep <;> rfl

def Place.tags : Place → List Tag
  | behind _ => []
  | inside _ tag _ _ place => place.tags ++ [tag]

theorem Place.tags_push (c : Continuity) (place : Place) : (place.push c).tags = place.tags := by
  cases place <;> rfl

/-- The command goes at the pace of its source, and the source is that of a continuity at some place
of a list, which has further two-steps around it. -/
structure Emission.Sound (pace : UInt32) (around : List Tag) (cs : List Continuity) (e : Emission) :
    Prop where
  pace : e.command.beatsPerStep = max (paceAt pace e.source) 1
  source : ∃ (place : Place) (c : Continuity),
    c.At place cs ∧ e.source = c.tag :: (place.tags ++ around)

namespace Emission

variable {pace : UInt32} {around : List Tag} {cs : List Continuity}

theorem sound_each {c : Continuity} {commands : List Command}
    (hpace : ∀ command ∈ commands,
      command.beatsPerStep = max (c.tag.beatsPerStep.getD (paceAt pace around)) 1) :
    ∀ e ∈ each (c.tag :: around) commands, e.Sound pace around (c :: cs) := by
  rw [each, List.forall_mem_map]
  intro command hcommand
  refine ⟨?_, .behind [], c, .behind [] cs, rfl⟩
  rw [paceAt_cons]
  exact hpace command hcommand

theorem Sound.push {e : Emission} (h : e.Sound pace around cs) (c : Continuity) :
    e.Sound pace around (c :: cs) := by
  obtain ⟨hpace, place, d, hat, hsource⟩ := h
  exact ⟨hpace, place.push c, d, hat.push c, by rw [hsource, Place.tags_push]⟩

theorem Sound.inside {e : Emission} {tag : Tag} {parts : List Continuity}
    (h : e.Sound pace (tag :: around) parts) (order : LineUp) (markTime : Bool) :
    e.Sound pace around (.twoStep tag order markTime parts :: cs) := by
  obtain ⟨hpace, place, d, hat, hsource⟩ := h
  refine ⟨hpace, .inside [] tag order markTime place, d, .inside [] tag order markTime hat cs, ?_⟩
  rw [hsource, Place.tags, List.append_assoc, List.singleton_append]

end Emission

theorem Tag.options_beatsPerStep (tag : Tag) {d : Defaults} {pace : UInt32}
    (h : d.beatsPerStep = max pace 1) :
    (tag.options d).beatsPerStep = max (tag.beatsPerStep.getD pace) 1 := by
  rw [options, h]
  cases tag.beatsPerStep with
  | none => exact max_max_one pace
  | some n => rfl

def Tag.spelledOut (pace : UInt32) (tag : Tag) : Tag :=
  { tag with beatsPerStep := some (tag.beatsPerStep.getD pace) }

theorem Tag.options_spelledOut (tag : Tag) {d : Defaults} {pace : UInt32}
    (h : d.beatsPerStep = max pace 1) : (tag.spelledOut pace).options d = tag.options d :=
  congrArg (fun n => Options.mk n (tag.facing.getD d.facing) (tag.facing.map Facing.bearing))
    (tag.options_beatsPerStep h).symm

namespace Continuity

variable {dot : DotId}

mutual

def emit (dot : DotId) (around : List Tag) :
    Continuity → Scene → Cue → Except Fault (List Emission × Cue)
  | .figure tag f, scene, cue => do
    let p ← f.perform dot scene (tag.options scene.defaults) cue
    return (Emission.each (tag :: around) p.commands, p.cue)
  | .twoStep tag order markTime parts, scene, cue =>
    if order.isEmpty then .error (.emptyOrder "two")
    else do
      let o := tag.options scene.defaults
      let wait := o.hold markTime (o.waitBeats order dot cue) cue
      let inner ← scene.nested o
      let (es, last) ← emitAll dot (tag :: around) parts inner wait.cue
      return (Emission.each (tag :: around) wait.commands ++ es, last)

def emitAll (dot : DotId) (around : List Tag) :
    List Continuity → Scene → Cue → Except Fault (List Emission × Cue)
  | [], _, cue => .ok ([], cue)
  | c :: cs, scene, cue => do
    let (es, next) ← emit dot around c scene cue
    let (fs, last) ← emitAll dot around cs scene next
    return (es ++ fs, last)

end

mutual

theorem passageOf_emit : ∀ (c : Continuity) (around : List Tag) (scene : Scene) (cue : Cue),
    (emit dot around c scene cue).map Emission.passageOf = c.perform dot scene cue
  | .figure tag f, around, scene, cue => by
    rw [emit, perform]
    cases f.perform dot scene (tag.options scene.defaults) cue with
    | error fault => rfl
    | ok p =>
      refine congrArg Except.ok ?_
      rw [Emission.passageOf, Emission.map_command_each]
  | .twoStep tag order markTime parts, around, scene, cue => by
    rw [emit, perform]
    split
    · rfl
    · dsimp only
      cases scene.nested (tag.options scene.defaults) with
      | error fault => rfl
      | ok inner =>
        change Except.map Emission.passageOf (emitAll dot (tag :: around) parts inner _ >>= _) =
          performAll dot parts inner _ >>= _
        rw [← passageOf_emitAll parts (tag :: around)]
        cases emitAll dot (tag :: around) parts inner _ with
        | error fault => rfl
        | ok book =>
          refine congrArg Except.ok ?_
          simp only [Emission.passageOf, List.map_append, Emission.map_command_each]
          rfl

theorem passageOf_emitAll : ∀ (cs : List Continuity) (around : List Tag) (scene : Scene)
    (cue : Cue),
    (emitAll dot around cs scene cue).map Emission.passageOf = performAll dot cs scene cue
  | [], _, _, _ => rfl
  | c :: cs, around, scene, cue => by
    rw [emitAll, performAll, ← passageOf_emit c around]
    cases emit dot around c scene cue with
    | error fault => rfl
    | ok book =>
      change Except.map Emission.passageOf (emitAll dot around cs scene book.2 >>= _) =
        performAll dot cs scene book.2 >>= _
      rw [← passageOf_emitAll cs around]
      cases emitAll dot around cs scene book.2 with
      | error fault => rfl
      | ok later =>
        refine congrArg Except.ok ?_
        simp only [Emission.passageOf, List.map_append]
        rfl

end

mutual

theorem sound_emit {pace : UInt32} : ∀ {c : Continuity} {around : List Tag} {scene : Scene}
    {cue : Cue} {book : List Emission × Cue},
    scene.defaults.beatsPerStep = max (paceAt pace around) 1 →
      emit dot around c scene cue = .ok book →
        ∀ cs, ∀ e ∈ book.1, e.Sound pace around (c :: cs)
  | .figure tag f, around, scene, cue, book, hdefaults, h, cs => by
    obtain ⟨p, hp, h⟩ := exists_of_bind_eq_ok h
    cases h
    refine Emission.sound_each (c := .figure tag f) fun command hcommand => ?_
    rw [Figure.perform_atPace hp command hcommand, tag.options_beatsPerStep hdefaults, max_max_one]
    rfl
  | .twoStep tag order markTime parts, around, scene, cue, book, hdefaults, h, cs => by
    rw [emit] at h
    split at h
    · cases h
    · obtain ⟨inner, hinner, h⟩ := exists_of_bind_eq_ok h
      obtain ⟨rest, hrest, h⟩ := exists_of_bind_eq_ok h
      cases h
      have hpace := tag.options_beatsPerStep hdefaults
      refine List.forall_mem_append.mpr ⟨?_, ?_⟩
      · refine Emission.sound_each (c := .twoStep tag order markTime parts) fun command hc => ?_
        rw [Options.hold_atPace _ _ _ _ command hc, hpace, max_max_one]
        rfl
      · obtain ⟨-, rfl⟩ := Scene.nested_eq_ok hinner
        rw [← paceAt_cons] at hpace
        intro e he
        exact (sound_emitAll hpace hrest e he).inside order markTime

theorem sound_emitAll {pace : UInt32} : ∀ {cs : List Continuity} {around : List Tag}
    {scene : Scene} {cue : Cue} {book : List Emission × Cue},
    scene.defaults.beatsPerStep = max (paceAt pace around) 1 →
      emitAll dot around cs scene cue = .ok book → ∀ e ∈ book.1, e.Sound pace around cs
  | [], _, _, _, _, _, h => by
    cases h
    nofun
  | c :: cs, around, scene, cue, book, hdefaults, h => by
    obtain ⟨first, hfirst, h⟩ := exists_of_bind_eq_ok h
    obtain ⟨later, hlater, h⟩ := exists_of_bind_eq_ok h
    cases h
    refine List.forall_mem_append.mpr ⟨sound_emit hdefaults hfirst cs, ?_⟩
    intro e he
    exact (sound_emitAll hdefaults hlater e he).push c

end

mutual

/-- The continuity with its pace and those of all its parts written out, where a pace is in force
around it. -/
def spelledOut (pace : UInt32) : Continuity → Continuity
  | figure tag f => figure (tag.spelledOut pace) f
  | twoStep tag order markTime parts =>
    twoStep (tag.spelledOut pace) order markTime
      (spelledOutAll (tag.beatsPerStep.getD pace) parts)

def spelledOutAll (pace : UInt32) : List Continuity → List Continuity
  | [] => []
  | c :: cs => spelledOut pace c :: spelledOutAll pace cs

end

mutual

theorem perform_spelledOut {pace : UInt32} : ∀ (c : Continuity) {scene : Scene} (cue : Cue),
    scene.defaults.beatsPerStep = max pace 1 →
      (spelledOut pace c).perform dot scene cue = c.perform dot scene cue
  | .figure tag f, scene, cue, h => by
    rw [spelledOut, perform, perform, Tag.options_spelledOut tag h]
  | .twoStep tag order markTime parts, scene, cue, h => by
    rw [spelledOut, perform, perform, Tag.options_spelledOut tag h]
    split
    · rfl
    · dsimp only
      cases hinner : scene.nested (tag.options scene.defaults) with
      | error fault => rfl
      | ok inner =>
        obtain ⟨-, rfl⟩ := Scene.nested_eq_ok hinner
        change performAll dot (spelledOutAll _ parts) _ _ >>= _ = performAll dot parts _ _ >>= _
        rw [performAll_spelledOut parts _ (tag.options_beatsPerStep h)]

theorem performAll_spelledOut {pace : UInt32} : ∀ (cs : List Continuity) {scene : Scene}
    (cue : Cue), scene.defaults.beatsPerStep = max pace 1 →
      performAll dot (spelledOutAll pace cs) scene cue = performAll dot cs scene cue
  | [], _, _, _ => rfl
  | c :: cs, scene, cue, h => by
    rw [spelledOutAll, performAll, performAll, perform_spelledOut c cue h]
    simp only [performAll_spelledOut cs _ h]

end

end Continuity

end MarchingDrill
