import MarchingDrill.Proofs.Continuity.Course

/-! Without beats nothing happens: continuities that succeed on a sheet that has no beats left make
no command, not even one without beats, and leave the cue as it is. -/

namespace MarchingDrill

section NoBeats

variable {cue : Cue} (hcue : cue.beats = 0)
include hcue

theorem Cue.granted_of_no_beats (duration : Option UInt32) : cue.granted duration = 0 := by
  rw [granted, hcue]
  exact UInt32.le_zero_iff.mp Std.min_le_right

theorem Options.hold_of_no_beats (o : Options) (markTime : Bool) :
    o.hold markTime cue.beats cue = .rest cue := by
  rw [hold, if_pos hcue]

theorem Options.settle_of_no_beats (o : Options) (ending : Ending) :
    o.settle ending (.rest cue) = .rest cue := by
  unfold settle
  exact congrArg (Passage.andThen (.rest cue)) (o.hold_of_no_beats hcue _)

theorem Options.march_of_no_beats (o : Options) (facing : Option Float) (spots : List Spot) :
    o.march facing spots cue = .rest cue := by
  unfold march
  cases spots with
  | nil => rfl
  | cons s ss => rw [Gait.walk, if_pos hcue]

theorem Figure.perform_of_no_beats {f : Figure} {dot : DotId} {scene : Scene} {o : Options}
    {p : Passage} (h : f.perform dot scene o cue = .ok p) : p = .rest cue := by
  cases f with
  | stop markTime duration =>
    cases h
    rw [cue.granted_of_no_beats hcue, ← hcue]
    exact o.hold_of_no_beats hcue markTime
  | forward steps direction =>
    cases h
    exact o.march_of_no_beats hcue ..
  | even =>
    cases h
    split
    · rfl
    · rw [if_pos hcue]
  | fountain along ending | diagonal along ending =>
    cases h
    split
    · rfl
    · rw [o.march_of_no_beats hcue, o.settle_of_no_beats hcue]
  | grapevine ending =>
    cases h
    split
    · rfl
    · dsimp only
      rw [o.march_of_no_beats hcue, ite_self, o.settle_of_no_beats hcue]
  | gate degrees clockwise center =>
    cases h
    rw [if_pos hcue]
  | counterMarch order duration =>
    obtain ⟨loop, w, hw, rfl⟩ := exists_circle h
    rw [cue.granted_of_no_beats hcue, Gait.circle, dif_neg fun h => h.1 rfl] at hw
    subst hw
    rfl
  | followLeader order path =>
    obtain ⟨spots, rfl⟩ := exists_route h
    rw [o.march_of_no_beats hcue, o.settle_of_no_beats hcue]

end NoBeats

namespace Continuity

mutual

theorem perform_of_no_beats {dot : DotId} : ∀ {c : Continuity} {scene : Scene} {cue : Cue}
    {p : Passage}, cue.beats = 0 → c.perform dot scene cue = .ok p → p = .rest cue
  | .figure .., _, _, _, hcue, h => Figure.perform_of_no_beats hcue h
  | .twoStep tag order markTime parts, scene, cue, p, hcue, h => by
    rw [perform] at h
    split at h
    · cases h
    · obtain ⟨inner, -, h⟩ := exists_of_bind_eq_ok h
      obtain ⟨rest, hrest, hp⟩ := exists_of_bind_eq_ok h
      cases hp
      have hwait : (tag.options scene.defaults).waitBeats order dot cue = 0 := by
        rw [Options.waitBeats, hcue]
        exact UInt32.le_zero_iff.mp Std.min_le_right
      have hhold : (tag.options scene.defaults).hold markTime
          ((tag.options scene.defaults).waitBeats order dot cue) cue = .rest cue := by
        rw [hwait, ← hcue]
        exact Options.hold_of_no_beats hcue _ markTime
      rw [hhold] at hrest ⊢
      rw [performAll_of_no_beats hcue hrest]
      rfl

theorem performAll_of_no_beats {dot : DotId} : ∀ {cs : List Continuity} {scene : Scene} {cue : Cue}
    {p : Passage}, cue.beats = 0 → performAll dot cs scene cue = .ok p → p = .rest cue
  | [], _, cue, _, _, h => by
    cases h
    rfl
  | c :: cs, scene, cue, _, hcue, h => by
    rw [performAll] at h
    obtain ⟨p, hp, h⟩ := exists_of_bind_eq_ok h
    obtain ⟨q, hq, h⟩ := exists_of_bind_eq_ok h
    cases h
    cases perform_of_no_beats hcue hp
    cases performAll_of_no_beats hcue hq
    rfl

end

end Continuity

end MarchingDrill
