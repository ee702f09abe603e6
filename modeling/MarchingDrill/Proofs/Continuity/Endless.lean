import MarchingDrill.Proofs.Continuity.CounterMarch

/-! Rounds that never end. A circle gives up once more marches without beats come in a row than its
loop has spots. Such a march leaves nothing behind but the spot where it ends, so by then the rounds
have come to a spot of the loop twice with all else as it was, and would go on for ever. Rounds that
do end never get there, and the circle gives what they give. Between finite spots they always end.
-/

namespace MarchingDrill

namespace Gait

variable {g : Gait} {loop : List Spot} {place idle : Nat} {budget : UInt32} {cue : Cue}

theorem ends_iff_not_goes_on :
    (budget = 0 ∨ loop.length ≤ idle) ↔ ¬(budget ≠ 0 ∧ idle < loop.length) := by
  rw [not_and_or, not_not, Nat.not_lt]

theorem after_of_no_beats {target : Spot} {m : Move} (hm : g.leg? cue.spot target budget = some m)
    (hzero : m.duration = 0) :
    budget - m.duration = budget ∧ cue.after (.move m) = ⟨target.snapped, cue.beats⟩ := by
  obtain ⟨hbudget, -, ⟨-, rfl⟩ | ⟨-, rfl⟩⟩ := leg?_eq_some hm
  · refine ⟨by rw [hzero, UInt32.sub_zero], congrArg (Cue.mk _) ?_⟩
    change less cue.beats (g.whole ⟨cue.spot, target⟩).duration = cue.beats
    rw [hzero, less_of_le (UInt32.le_iff_toNat_le.mpr (Nat.zero_le _)), UInt32.sub_zero]
  · exact absurd hzero hbudget

namespace Rounds

variable {count count' : Nat} {w w' : Walk}

theorem unique (h : g.Rounds loop place idle budget cue count w)
    (h' : g.Rounds loop place idle budget cue count' w') : count' = count ∧ w' = w := by
  induction h generalizing count' w' with
  | stop ends =>
    cases h' with
    | stop => exact ⟨rfl, rfl⟩
    | pass goes_on | march goes_on => exact absurd goes_on (ends_iff_not_goes_on.mp ends)
  | pass goes_on heads stays _ ih =>
    cases h' with
    | stop ends => exact absurd goes_on (ends_iff_not_goes_on.mp ends)
    | pass _ heads' _ rest =>
      cases heads.symm.trans heads'
      obtain ⟨rfl, rfl⟩ := ih rest
      exact ⟨rfl, rfl⟩
    | march _ heads' goes =>
      cases heads.symm.trans heads'
      cases stays.symm.trans goes
  | march goes_on heads goes _ ih =>
    cases h' with
    | stop ends => exact absurd goes_on (ends_iff_not_goes_on.mp ends)
    | pass _ heads' stays =>
      cases heads.symm.trans heads'
      cases stays.symm.trans goes
    | march _ heads' goes' rest =>
      cases heads.symm.trans heads'
      cases goes.symm.trans goes'
      obtain ⟨rfl, rfl⟩ := ih rest
      exact ⟨rfl, rfl⟩

theorem of_mod_eq (h : g.Rounds loop place idle budget cue count w) {place' : Nat}
    (hmod : place' ≡ place [MOD loop.length]) :
    g.Rounds loop place' idle budget cue count w := by
  induction h generalizing place' with
  | stop ends => exact .stop ends
  | pass goes_on heads stays _ ih =>
    exact .pass goes_on (by rwa [hmod]) stays (ih (hmod.add_right 1))
  | march goes_on heads goes _ ih =>
    exact .march goes_on (by rwa [hmod]) goes (ih (hmod.add_right 1))

end Rounds

/-- The places of a loop to which marches without beats have led one after the other, the rounds
from each of which go on for at least so many counts. -/
structure Streak (g : Gait) (loop : List Spot) (budget beats : UInt32) (count : Nat)
    (seen : List Nat) : Prop where
  nodup : seen.Nodup
  on_loop : ∀ place ∈ seen, place < loop.length
  ahead : ∀ place ∈ seen, ∃ (target : Spot) (more : Nat) (w : Walk),
    loop[place % loop.length]? = some target ∧ count ≤ more ∧
      g.Rounds loop (place + 1) 0 budget ⟨target.snapped, beats⟩ more w

namespace Streak

variable {beats : UInt32} {count : Nat} {seen : List Nat}

theorem none (g : Gait) (loop : List Spot) (budget beats : UInt32) (count : Nat) :
    g.Streak loop budget beats count [] :=
  ⟨List.nodup_nil, List.forall_mem_nil _, List.forall_mem_nil _⟩

theorem length_le (h : g.Streak loop budget beats count seen) : seen.length ≤ loop.length := by
  have hsub : seen ⊆ List.range loop.length := fun place hplace =>
    List.mem_range.mpr (h.on_loop place hplace)
  simpa using (h.nodup.subperm hsub).length_le

theorem of_le (h : g.Streak loop budget beats count seen) {fewer : Nat} (hle : fewer ≤ count) :
    g.Streak loop budget beats fewer seen where
  nodup := h.nodup
  on_loop := h.on_loop
  ahead place hplace := by
    obtain ⟨target, more, w, heads, hmore, hrounds⟩ := h.ahead place hplace
    exact ⟨target, more, w, heads, hle.trans hmore, hrounds⟩

theorem next (h : g.Streak loop budget beats (count + 1) seen) {target : Spot} {w : Walk}
    (heads : loop[place % loop.length]? = some target)
    (rest : g.Rounds loop (place + 1) 0 budget ⟨target.snapped, beats⟩ count w) :
    g.Streak loop budget beats count (place % loop.length :: seen) := by
  have hpos : 0 < loop.length := (Nat.zero_le _).trans_lt (List.getElem?_eq_some_iff.mp heads).1
  have hmod : place % loop.length + 1 ≡ place + 1 [MOD loop.length] :=
    (Nat.mod_modEq place loop.length).add_right 1
  have hsame : loop[place % loop.length % loop.length]? = some target := by rwa [Nat.mod_mod]
  -- rounds that end have fewer of them left here than at any spot before
  have hnew : place % loop.length ∉ seen := by
    intro hseen
    obtain ⟨target', more, w', heads', hmore, hrounds⟩ := h.ahead _ hseen
    cases hsame.symm.trans heads'
    obtain ⟨hcount, -⟩ := (rest.of_mod_eq hmod).unique hrounds
    omega
  refine ⟨List.nodup_cons.mpr ⟨hnew, h.nodup⟩, List.forall_mem_cons.mpr
    ⟨Nat.mod_lt _ hpos, h.on_loop⟩, List.forall_mem_cons.mpr ⟨?_, ?_⟩⟩
  · exact ⟨target, count, w, hsame, Nat.le_refl _, rest.of_mod_eq hmod⟩
  · exact (h.of_le (Nat.le_succ _)).ahead

end Streak

/-- Rounds that end are what the circle gives: it has not given up before. -/
theorem Rounds.circle_eq {count : Nat} {w : Walk}
    (h : g.Rounds loop place idle budget cue count w) {seen : List Nat}
    (streak : g.Streak loop budget cue.beats count seen) :
    g.circle loop place idle seen.length budget cue = w := by
  induction h generalizing seen with
  | stop ends => rw [circle, dif_neg fun h => ends_iff_not_goes_on.mp ends ⟨h.1, h.2.1⟩]
  | pass goes_on heads stays _ ih =>
    rw [circle_pass ⟨goes_on.1, goes_on.2, streak.length_le⟩ heads stays]
    exact ih (streak.of_le (Nat.le_succ _))
  | @march place idle count budget cue w target m goes_on heads goes rest ih =>
    rw [circle_march ⟨goes_on.1, goes_on.2, streak.length_le⟩ heads goes]
    refine congrArg (Walk.after m) ?_
    split
    · next hzero =>
      obtain ⟨hbudget, hcue⟩ := after_of_no_beats goes hzero
      rw [hbudget, hcue] at rest ih ⊢
      exact ih (streak.next heads rest)
    · exact ih (.none ..)

/-- To finite spots the rounds end wherever they begin: the first march ends on a finite spot or
with the budget. -/
theorem exists_rounds_of_finite (finite : ∀ s ∈ loop, s.Finite) (place idle : Nat)
    (budget : UInt32) (cue : Cue) :
    ∃ (count : Nat) (w : Walk), g.Rounds loop place idle budget cue count w := by
  by_cases goes_on : budget ≠ 0 ∧ idle < loop.length
  · obtain ⟨target, heads⟩ :=
      exists_heading place (List.length_pos_iff.mp ((Nat.zero_le idle).trans_lt goes_on.2))
    cases hm : g.leg? cue.spot target budget with
    | none =>
      obtain ⟨count, w, rest⟩ := exists_rounds_of_finite finite (place + 1) (idle + 1) budget cue
      exact ⟨_, _, .pass goes_on heads hm rest⟩
    | some m =>
      have hfinish : budget - m.duration ≠ 0 → m.finish.Finite :=
        leg?_finish_finite (finite target (List.mem_of_getElem? heads)) hm
      obtain ⟨count, -, rest⟩ := g.exists_rounds (budget - m.duration) (cue.after (.move m)) finite
        (place + 1) 0 0 hfinish rfl
      exact ⟨_, _, .march goes_on heads hm rest⟩
  · exact ⟨0, _, .stop (ends_iff_not_goes_on.mpr goes_on)⟩
termination_by loop.length - idle

end Gait

end MarchingDrill
