import Mathlib
import MarchingDrill.Continuity.Passage

/-! Courses: commands that a dot can carry out one after the other from a cue on. Each of them
starts where the dot stands and takes no more beats than the sheet has left. Everything that
continuities make of a cue is a course to the cue that they leave. -/

namespace MarchingDrill

inductive Course : Cue → List Command → Cue → Prop
  | rest (cue : Cue) : Course cue [] cue
  | next {cue last : Cue} {c : Command} {cs : List Command} (starts : c.start = cue.spot)
      (fits : c.duration ≤ cue.beats) (rest : Course (cue.after c) cs last) :
      Course cue (c :: cs) last

/-- The passage is a course from a cue on. -/
def Passage.From (p : Passage) (cue : Cue) : Prop := Course cue p.commands p.cue

theorem Course.append {cue mid last : Cue} {cs ds : List Command} (h : Course cue cs mid)
    (k : Course mid ds last) : Course cue (cs ++ ds) last := by
  induction h with
  | rest cue => exact k
  | next starts fits _ ih => exact .next starts fits (ih k)

namespace Passage

theorem rest_from (cue : Cue) : (rest cue).From cue := .rest cue

theorem one_from {cue : Cue} {c : Command} (starts : c.start = cue.spot)
    (fits : c.duration ≤ cue.beats) : (one cue c).From cue := .next starts fits (.rest _)

theorem From.andThen {p q : Passage} {cue : Cue} (hp : p.From cue) (hq : q.From p.cue) :
    (p.andThen q).From cue := hp.append hq

end Passage

theorem Options.hold_from (o : Options) (markTime : Bool) {beats : UInt32} {cue : Cue}
    (h : beats ≤ cue.beats) : (o.hold markTime beats cue).From cue := by
  unfold hold
  split
  · exact Passage.rest_from cue
  · exact Passage.one_from rfl h

theorem Options.settle_from (o : Options) (ending : Ending) {p : Passage} {cue : Cue}
    (h : p.From cue) : (o.settle ending p).From cue :=
  h.andThen (o.hold_from _ (UInt32.le_refl _))

namespace Gait

variable {g : Gait} {m : Move} {budget : UInt32} {cue : Cue}

theorem leg?_start {start target : Spot} (h : g.leg? start target budget = some m) :
    m.start = start := by
  simp only [leg?] at h
  split at h
  · cases h
  · cases h
    rfl

theorem after_from {w : Walk} (starts : m.start = cue.spot) (fits : m.duration ≤ cue.beats)
    (h : w.passage.From (cue.after (.move m))) : (w.after m).passage.From cue :=
  Course.next (c := .move m) starts fits h

theorem walk_from (g : Gait) (spots : List Spot) (budget : UInt32) (cue : Cue) :
    (g.walk spots budget cue).passage.From cue := by
  induction spots generalizing budget cue with
  | nil => exact Passage.rest_from cue
  | cons s ss ih =>
    rw [walk]
    split
    · exact Passage.rest_from cue
    · cases hm : g.leg? cue.spot s (min budget cue.beats) with
      | none => exact ih budget cue
      | some m =>
        have fits : m.duration ≤ cue.beats := Std.le_trans (leg?_duration_le hm) Std.min_le_right
        exact after_from (leg?_start hm) fits (ih _ _)

theorem circle_from (g : Gait) (loop : List Spot) (place idle still : Nat) {budget : UInt32}
    {cue : Cue} (h : budget ≤ cue.beats) :
    (g.circle loop place idle still budget cue).passage.From cue ∧
      (g.circle loop place idle still budget cue).budget ≤
        (g.circle loop place idle still budget cue).passage.cue.beats := by
  -- the invariant: the budget never exceeds the beats of the cue, so its legs suit the sheet
  fun_induction circle g loop place idle still budget cue with
  | case1 place idle still budget cue _ target hm ih => exact ih h
  | case2 place idle still budget cue _ target m hm ih =>
    have hle : m.duration ≤ budget := leg?_duration_le hm
    have fits : m.duration ≤ cue.beats := UInt32.le_trans hle h
    have hrest : budget - m.duration ≤ (cue.after (.move m)).beats := by
      change _ ≤ less cue.beats m.duration
      rw [less_of_le fits, UInt32.le_iff_toNat_le, UInt32.toNat_sub_of_le _ _ hle,
        UInt32.toNat_sub_of_le _ _ fits]
      exact Nat.sub_le_sub_right (UInt32.le_iff_toNat_le.mp h) _
    obtain ⟨hfrom, hbudget⟩ := ih hrest
    exact ⟨after_from (leg?_start hm) fits hfrom, hbudget⟩
  | case3 place idle still budget cue => exact ⟨Passage.rest_from cue, h⟩

end Gait

theorem Options.march_from (o : Options) (facing : Option Float) (spots : List Spot) (cue : Cue) :
    (o.march facing spots cue).From cue := Gait.walk_from _ _ _ _

theorem Cue.granted_le (cue : Cue) (duration : Option UInt32) : cue.granted duration ≤ cue.beats :=
  Std.min_le_right

theorem exists_of_bind_eq_ok {ε α β : Type} {x : Except ε α} {f : α → Except ε β} {b : β}
    (h : (x >>= f) = .ok b) : ∃ a, x = .ok a ∧ f a = .ok b := by
  cases x with
  | error e => cases h
  | ok a => exact ⟨a, rfl, h⟩

theorem exists_ok_of_any {ε α : Type} {x : Except ε α} {P : α → Bool}
    (h : x.toOption.any P = true) : ∃ a, x = .ok a ∧ P a = true := by
  cases x with
  | error e => cases h
  | ok a => exact ⟨a, rfl, h⟩

namespace Figure

variable {order : LineUp} {dot : DotId} {scene : Scene} {o : Options} {cue : Cue} {p : Passage}

theorem exists_circle {duration : Option UInt32}
    (h : (counterMarch order duration).perform dot scene o cue = .ok p) :
    ∃ (loop : List Spot) (w : Walk),
      Gait.circle ⟨o.asked, o.beatsPerStep⟩ loop (order.firstTarget dot) 0 0 (cue.granted duration)
        cue = w ∧ p = w.passage.andThen (o.hold true w.budget w.passage.cue) := by
  simp only [perform] at h
  split at h
  · cases h
  · split at h
    · next hzero =>
      cases h
      refine ⟨[], _, rfl, ?_⟩
      rw [hzero, Gait.circle, dif_neg fun h => h.1 rfl]
      rfl
    · obtain ⟨loop, -, hp⟩ := exists_of_bind_eq_ok h
      cases hp
      exact ⟨loop, _, rfl, rfl⟩

theorem exists_route {path : List Spot}
    (h : (followLeader order path).perform dot scene o cue = .ok p) :
    ∃ spots : List Spot, p = o.settle .markTime (o.march o.asked spots cue) := by
  simp only [perform] at h
  split at h
  · cases h
  · obtain ⟨spots, -, hp⟩ := exists_of_bind_eq_ok h
    cases hp
    exact ⟨_, rfl⟩

end Figure

theorem Figure.perform_from {f : Figure} {dot : DotId} {scene : Scene} {o : Options} {cue : Cue}
    {p : Passage} (h : f.perform dot scene o cue = .ok p) : p.From cue := by
  cases f with
  | stop markTime duration =>
    cases h
    exact o.hold_from markTime (cue.granted_le duration)
  | forward steps direction =>
    cases h
    exact o.march_from ..
  | even =>
    cases h
    split
    · exact Passage.rest_from cue
    · split
      · exact Passage.rest_from cue
      · exact Passage.one_from rfl (UInt32.le_refl _)
  | fountain along ending | diagonal along ending =>
    cases h
    split
    · exact Passage.rest_from cue
    · exact o.settle_from ending (o.march_from ..)
  | grapevine ending =>
    cases h
    split
    · exact Passage.rest_from cue
    · refine o.settle_from ending ?_
      split
      · exact Passage.rest_from cue
      · exact o.march_from ..
  | gate degrees clockwise center =>
    cases h
    split
    · exact Passage.rest_from cue
    · exact Passage.one_from (Arc.about_start ..) (Std.le_of_eq (Arc.about_duration ..))
  | counterMarch order duration =>
    obtain ⟨loop, w, rfl, rfl⟩ := exists_circle h
    obtain ⟨hfrom, hbudget⟩ := Gait.circle_from ⟨o.asked, o.beatsPerStep⟩ loop
      (order.firstTarget dot) 0 0 (cue.granted_le duration)
    exact hfrom.andThen (o.hold_from true hbudget)
  | followLeader order path =>
    obtain ⟨spots, rfl⟩ := exists_route h
    exact o.settle_from .markTime (o.march_from ..)

namespace Continuity

mutual

theorem perform_from {dot : DotId} : ∀ {c : Continuity} {scene : Scene} {cue : Cue} {p : Passage},
    c.perform dot scene cue = .ok p → p.From cue
  | .figure .., _, _, _, h => Figure.perform_from h
  | .twoStep tag order markTime parts, scene, cue, p, h => by
    rw [perform] at h
    split at h
    · cases h
    · obtain ⟨inner, -, h⟩ := exists_of_bind_eq_ok h
      obtain ⟨rest, hrest, hp⟩ := exists_of_bind_eq_ok h
      cases hp
      exact (Options.hold_from _ markTime Std.min_le_right).andThen (performAll_from hrest)

theorem performAll_from {dot : DotId} : ∀ {cs : List Continuity} {scene : Scene} {cue : Cue}
    {p : Passage}, performAll dot cs scene cue = .ok p → p.From cue
  | [], _, cue, _, h => by
    cases h
    exact Passage.rest_from cue
  | c :: cs, scene, cue, _, h => by
    rw [performAll] at h
    obtain ⟨p, hp, h⟩ := exists_of_bind_eq_ok h
    obtain ⟨q, hq, h⟩ := exists_of_bind_eq_ok h
    cases h
    exact (perform_from hp).andThen (performAll_from hq)

end

end Continuity

def pairScene : Scene where
  sheet := ⟨0⟩
  here dot := if dot = ⟨"A"⟩ then some ⟨0, 0⟩ else some ⟨0, 4⟩
  next _ := some ⟨4, 4⟩
  defaults := ⟨1, .east⟩
  depth := 0

theorem pairScene_here (dot : DotId) : ∃ s, pairScene.here dot = some s := by
  dsimp only [pairScene]
  split
  · exact ⟨_, rfl⟩
  · exact ⟨_, rfl⟩

def plainTag : Tag := ⟨"c", .plain, none, none⟩

end MarchingDrill
