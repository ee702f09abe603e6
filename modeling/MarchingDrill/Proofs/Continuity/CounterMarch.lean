import MarchingDrill.Proofs.Continuity.Legs

/-! Counter marches: a dot heads for the spots of a loop round and round. Between finite spots the
rounds come to an end, either with the budget or when a whole lap of spots in a row needs no march,
and then the dot marks time for what is left. Where the loop is said to begin makes no difference to
the dots on it. -/

namespace MarchingDrill

/-- The spots that come in turn from a place of a loop on, round and round. -/
def headings (loop : List Spot) (place count : Nat) : List Spot :=
  (List.range' place count).filterMap fun k => loop[k % loop.length]?

section Headings

variable {loop : List Spot} {s : Spot} (place count : Nat)

theorem exists_heading (h : loop ≠ []) : ∃ s, loop[place % loop.length]? = some s :=
  ⟨_, List.getElem?_eq_getElem (Nat.mod_lt place (List.length_pos_iff.mpr h))⟩

variable {place} in
theorem headings_succ (h : loop[place % loop.length]? = some s) :
    headings loop place (count + 1) = s :: headings loop (place + 1) count := by
  rw [headings, List.range'_succ, List.filterMap_cons, h]
  rfl

theorem headings_add (loop : List Spot) (more : Nat) :
    headings loop place (count + more) =
      headings loop place count ++ headings loop (place + count) more := by
  simp only [headings]
  rw [← List.filterMap_append, List.range'_append_1]

theorem map_some_headings (h : loop ≠ []) :
    (headings loop place count).map some =
      (List.range' place count).map fun k => loop[k % loop.length]? := by
  induction count generalizing place with
  | zero => rfl
  | succ count ih =>
    obtain ⟨s, hs⟩ := exists_heading place h
    rw [headings_succ count hs, List.map_cons, ih, List.range'_succ, List.map_cons, hs]

theorem headings_length (loop : List Spot) :
    headings loop place loop.length = loop.rotate place := by
  rcases eq_or_ne loop [] with rfl | h
  · rfl
  · refine List.map_injective_iff.mpr (Option.some_injective Spot) ?_
    rw [map_some_headings place _ h]
    refine List.ext_getElem (by simp) fun i hi _ => ?_
    rw [List.length_map, List.length_range'] at hi
    simp [List.getElem_rotate, Nat.add_comm place i, Nat.mod_lt _ (Nat.zero_lt_of_lt hi)]

theorem mem_of_mem_headings (h : s ∈ headings loop place count) : s ∈ loop := by
  obtain ⟨k, -, hk⟩ := List.mem_filterMap.mp h
  exact List.mem_of_getElem? hk

theorem mem_headings_length : s ∈ headings loop place loop.length ↔ s ∈ loop := by
  rw [headings_length, List.mem_rotate]

theorem standsOn_headings_length :
    s.StandsOn (headings loop place loop.length) ↔ s.StandsOn loop :=
  forall_congr' fun _ => imp_congr_left (mem_headings_length place)

end Headings

namespace Gait

/-- The rounds that a circle goes, counted: it heads for one spot in each of them, until the budget
is used up or as many spots in a row as the loop has were at no distance. Nothing else ends them. -/
inductive Rounds (g : Gait) (loop : List Spot) :
    (place idle : Nat) → UInt32 → Cue → (count : Nat) → Walk → Prop
  | stop {place idle : Nat} {budget : UInt32} {cue : Cue}
      (ends : budget = 0 ∨ loop.length ≤ idle) :
      Rounds g loop place idle budget cue 0 ⟨.rest cue, budget⟩
  | pass {place idle count : Nat} {budget : UInt32} {cue : Cue} {w : Walk} {target : Spot}
      (goes_on : budget ≠ 0 ∧ idle < loop.length)
      (heads : loop[place % loop.length]? = some target)
      (stays : g.leg? cue.spot target budget = none)
      (rest : Rounds g loop (place + 1) (idle + 1) budget cue count w) :
      Rounds g loop place idle budget cue (count + 1) w
  | march {place idle count : Nat} {budget : UInt32} {cue : Cue} {w : Walk} {target : Spot}
      {m : Move} (goes_on : budget ≠ 0 ∧ idle < loop.length)
      (heads : loop[place % loop.length]? = some target)
      (goes : g.leg? cue.spot target budget = some m)
      (rest : Rounds g loop (place + 1) 0 (budget - m.duration) (cue.after (.move m)) count w) :
      Rounds g loop place idle budget cue (count + 1) (w.after m)

variable {g : Gait} {loop : List Spot} {budget : UInt32} {cue : Cue}

theorem leg?_finish_finite {s t : Spot} {m : Move} (ht : t.Finite)
    (hm : g.leg? s t budget = some m) (hleft : budget - m.duration ≠ 0) : m.finish.Finite := by
  obtain ⟨-, -, ⟨-, rfl⟩ | ⟨-, rfl⟩⟩ := leg?_eq_some hm
  · exact ht.snapped
  · exact absurd (UInt32.sub_self budget) hleft

theorem one_le_duration_of_finite {s t : Spot} {m : Move} (hs : s.Finite) (ht : t.Finite)
    (hm : g.leg? s t budget = some m) : 1 ≤ m.duration.toNat := by
  obtain ⟨hbudget, hne, ⟨-, rfl⟩ | ⟨-, rfl⟩⟩ := leg?_eq_some hm
  · exact hs.one_le_beats ht hne g
  · exact Nat.one_le_iff_ne_zero.mpr fun h0 => hbudget (UInt32.toNat_inj.mp h0)

variable (budget cue) in
/-- Between finite spots the circle never meets the limit on marches without beats, and every march
brings the end of the budget closer. -/
theorem exists_rounds (finite : ∀ s ∈ loop, s.Finite) (place idle still : Nat)
    (start : budget ≠ 0 → cue.spot.Finite) (hstill : still = 0) :
    ∃ count ≤ loop.length * budget.toNat + (loop.length - idle),
      g.Rounds loop place idle budget cue count (g.circle loop place idle still budget cue) := by
  fun_induction circle g loop place idle still budget cue with
  | case1 place idle still budget cue h target hm ih =>
    obtain ⟨count, hcount, hrounds⟩ := ih start hstill
    have heads : loop[place % loop.length]? = some target := List.getElem?_eq_getElem _
    exact ⟨count + 1, by omega, .pass ⟨h.1, h.2.1⟩ heads hm hrounds⟩
  | case2 place idle still budget cue h target m hm ih =>
    have ht : target.Finite := finite target (List.get_mem _ _)
    have hbeats := one_le_duration_of_finite (start h.1) ht hm
    have hne : m.duration ≠ 0 := fun h0 => by simp [h0] at hbeats
    -- `still` stays zero because the march takes a beat, which pays for a whole lap of spots
    obtain ⟨count, hcount, hrounds⟩ := ih (leg?_finish_finite ht hm) (dif_neg hne)
    have heads : loop[place % loop.length]? = some target := List.getElem?_eq_getElem _
    refine ⟨count + 1, ?_, .march ⟨h.1, h.2.1⟩ heads hm hrounds⟩
    have hle : m.duration ≤ budget := leg?_duration_le hm
    rw [UInt32.toNat_sub_of_le _ _ hle] at hcount
    rw [UInt32.le_iff_toNat_le] at hle
    have hlap : loop.length * (budget.toNat - m.duration.toNat + 1) ≤
        loop.length * budget.toNat := Nat.mul_le_mul_left _ (by omega)
    rw [Nat.mul_succ] at hlap
    omega
  | case3 place idle still budget cue h =>
    subst hstill
    refine ⟨0, Nat.zero_le _, .stop ?_⟩
    by_contra hgoes
    rw [not_or, Nat.not_le] at hgoes
    exact h ⟨hgoes.1, hgoes.2, Nat.zero_le _⟩

namespace Rounds

variable {place idle count : Nat} {w : Walk}

theorem eq_of_no_budget (h : g.Rounds loop place idle budget cue count w) (hzero : budget = 0) :
    count = 0 ∧ w = ⟨.rest cue, budget⟩ := by
  cases h with
  | stop => exact ⟨rfl, rfl⟩
  | pass goes_on | march goes_on => exact absurd hzero goes_on.1

theorem covers (h : g.Rounds loop place idle budget cue count w) :
    ∃ moves : List Move, w.passage.commands = moves.map .move ∧
      g.Covers budget (cue.spot.legs (headings loop place count)) moves w.budget := by
  induction h with
  | stop => exact ⟨[], rfl, .none _⟩
  | @pass place idle count budget cue w target goes_on heads stays _ ih =>
    rw [headings_succ count heads, Spot.legs, if_pos (no_length_of_leg? goes_on.1 stays)]
    exact ih
  | @march place idle count budget cue w target m goes_on heads goes rest ih =>
    obtain ⟨hbudget, hne, ⟨hfits, rfl⟩ | ⟨hshort, rfl⟩⟩ := leg?_eq_some goes
    · obtain ⟨moves, hmoves, hcovers⟩ := ih
      rw [headings_succ count heads, Spot.legs, if_neg (Bool.eq_false_iff.mp hne)]
      exact ⟨_ :: moves, congrArg (List.cons _) hmoves, .whole hfits hcovers⟩
    · -- a leg cut short uses up the budget, so no round follows it
      obtain ⟨rfl, rfl⟩ := rest.eq_of_no_budget (UInt32.sub_self budget)
      rw [headings_succ 0 heads, Spot.legs, if_neg (Bool.eq_false_iff.mp hne)]
      exact ⟨[_], rfl, UInt32.sub_self budget ▸ .part hbudget hshort⟩

theorem standsOn (h : g.Rounds loop place idle budget cue count w) (base : Nat)
    (hbase : base + idle = place) (hstands : cue.spot.StandsOn (headings loop base idle))
    (hleft : w.budget ≠ 0) :
    w.passage.cue.spot = cue.spot.arrival (headings loop place count) ∧
      w.passage.cue.spot.StandsOn loop := by
  -- the last `idle` spots, from `base` on, are at no distance from where the dot stands
  induction h generalizing base with
  | @stop place idle budget cue ends =>
    obtain ⟨more, rfl⟩ := Nat.exists_eq_add_of_le (ends.resolve_left hleft)
    refine ⟨rfl, (standsOn_headings_length base).mp fun s hs => hstands s ?_⟩
    rw [headings_add]
    exact List.mem_append_left _ hs
  | @pass place idle count budget cue w target goes_on heads stays _ ih =>
    have h : (cue.spot.steps target == 0) = true := no_length_of_leg? goes_on.1 stays
    rw [headings_succ count heads, Spot.arrival, if_pos h]
    refine ih base (congrArg Nat.succ hbase) ?_ hleft
    rw [headings_add, hbase, headings_succ 0 heads]
    exact List.forall_mem_append.mpr ⟨hstands, List.forall_mem_singleton.mpr h⟩
  | @march place idle count budget cue w target m _ heads goes rest ih =>
    obtain ⟨-, hne, ⟨-, rfl⟩ | ⟨-, rfl⟩⟩ := leg?_eq_some goes
    · rw [headings_succ count heads, Spot.arrival, if_neg (Bool.eq_false_iff.mp hne)]
      exact ih (place + 1) rfl (List.forall_mem_nil _) hleft
    · obtain ⟨-, rfl⟩ := rest.eq_of_no_budget (UInt32.sub_self budget)
      exact absurd (UInt32.sub_self budget) hleft

end Rounds

theorem beats_headings_le {s : Spot} {place k : Nat} (count : Nat)
    (h : (s.arrival (headings loop place k)).StandsOn loop) :
    exactSum ((s.legs (headings loop place count)).map g.beats) ≤
      exactSum ((s.legs (headings loop place k)).map g.beats) := by
  rcases Nat.le_total count k with hle | hle
  · obtain ⟨more, rfl⟩ := Nat.exists_eq_add_of_le hle
    rw [headings_add, Spot.legs_append, List.map_append, exactSum_append]
    exact Nat.le_add_right _ _
  · obtain ⟨more, rfl⟩ := Nat.exists_eq_add_of_le hle
    have hstands : (s.arrival (headings loop place k)).StandsOn (headings loop (place + k) more) :=
      fun t ht => h t (mem_of_mem_headings _ _ ht)
    rw [headings_add, Spot.legs_append, hstands.legs_eq_nil, List.append_nil]

theorem Rounds.budget_ne_zero_iff {place count : Nat} {w : Walk}
    (h : g.Rounds loop place 0 budget cue count w) :
    w.budget ≠ 0 ↔ ∃ k,
      exactSum ((cue.spot.legs (headings loop place k)).map g.beats) < budget.toNat ∧
      (cue.spot.arrival (headings loop place k)).StandsOn
        (headings loop (place + k) loop.length) := by
  obtain ⟨moves, -, hcovers⟩ := h.covers
  have hleft := hcovers.toNat_left
  simp only [standsOn_headings_length]
  constructor
  · intro hne
    obtain ⟨harrival, hstands⟩ := h.standsOn place rfl (List.forall_mem_nil _) hne
    have hpos : w.budget.toNat ≠ 0 := fun h0 => hne (UInt32.toNat_inj.mp h0)
    exact ⟨count, by omega, harrival ▸ hstands⟩
  · rintro ⟨k, hlt, hstands⟩ hzero
    have hle := beats_headings_le (g := g) count hstands
    rw [hzero, UInt32.toNat_zero] at hleft
    omega

section Unrolled

variable {g : Gait} {loop : List Spot} {place idle still : Nat} {budget : UInt32} {cue : Cue}
  {target : Spot}
  (h : budget ≠ 0 ∧ idle < loop.length ∧ still ≤ loop.length)
  (heads : loop[place % loop.length]? = some target)
include h heads

theorem circle_pass (stays : g.leg? cue.spot target budget = none) :
    g.circle loop place idle still budget cue =
      g.circle loop (place + 1) (idle + 1) still budget cue := by
  obtain ⟨_, rfl⟩ := List.getElem?_eq_some_iff.mp heads
  rw [circle, dif_pos h]
  dsimp only
  split
  · rfl
  · next hm => cases stays.symm.trans hm

theorem circle_march {m : Move} (goes : g.leg? cue.spot target budget = some m) :
    g.circle loop place idle still budget cue =
      (g.circle loop (place + 1) 0 (if m.duration = 0 then still + 1 else 0)
        (budget - m.duration) (cue.after (.move m))).after m := by
  obtain ⟨_, rfl⟩ := List.getElem?_eq_some_iff.mp heads
  rw [circle, dif_pos h]
  dsimp only
  split
  · next hm => cases goes.symm.trans hm
  · next hm =>
    cases goes.symm.trans hm
    rfl

end Unrolled

theorem circle_congr (g : Gait) {loop loop' : List Spot} (hlength : loop'.length = loop.length)
    (place place' idle still : Nat) (budget : UInt32) (cue : Cue)
    (hturn : ∀ i, loop'[(place' + i) % loop'.length]? = loop[(place + i) % loop.length]?) :
    g.circle loop' place' idle still budget cue = g.circle loop place idle still budget cue := by
  fun_induction circle g loop place idle still budget cue generalizing place' with
  | case1 place idle still budget cue h target hm ih =>
    have heads : loop'[place' % loop'.length]? = some target :=
      (hturn 0).trans (List.getElem?_eq_getElem _)
    rw [circle_pass (hlength ▸ h) heads hm]
    refine ih _ fun i => ?_
    rw [Nat.add_assoc, Nat.add_assoc]
    exact hturn (1 + i)
  | case2 place idle still budget cue h target m hm ih =>
    have heads : loop'[place' % loop'.length]? = some target :=
      (hturn 0).trans (List.getElem?_eq_getElem _)
    rw [circle_march (hlength ▸ h) heads hm]
    refine congrArg (Walk.after m) (ih _ fun i => ?_)
    rw [Nat.add_assoc, Nat.add_assoc]
    exact hturn (1 + i)
  | case3 place idle still budget cue h =>
    rw [circle, dif_neg (hlength ▸ h)]

end Gait

theorem LineUp.firstTarget_eq (order : LineUp) (dot : DotId) :
    order.firstTarget dot = if dot ∈ order then order.slot dot + 1 else 0 := by
  unfold firstTarget place? slot
  cases h : order.idxOf? dot with
  | none =>
    rw [if_neg (List.idxOf?_eq_none_iff.mp h)]
    rfl
  | some place =>
    have hmem : dot ∈ order := List.isSome_idxOf?.mp (Option.isSome_of_eq_some h)
    rw [if_pos hmem, List.idxOf_eq_getD_idxOf?, h]
    rfl

namespace Figure

section Route

variable {order : LineUp} {scene : Scene} {loop : List Spot} (filled : order ≠ [])
  (placed : order.map scene.here = loop.map some)
include filled placed

theorem perform_counterMarch (dot : DotId) (o : Options) (duration : Option UInt32) (cue : Cue)
    {w : Walk}
    (hw : o.gait.circle loop (order.firstTarget dot) 0 0 (cue.granted duration) cue = w) :
    (counterMarch order duration).perform dot scene o cue =
      .ok (w.passage.andThen (o.hold true w.budget w.passage.cue)) := by
  have hne : ¬order.isEmpty = true := by simpa using filled
  rw [perform, if_neg hne, Scene.spots_eq_ok_iff.mpr placed]
  split
  · next h =>
    rw [h, Gait.circle, dif_neg fun h => h.1 rfl] at hw
    subst hw
    rfl
  · subst hw
    rfl

/-- The route of a counter march between finite spots: the rounds end, whatever the budget, and the
moves are the legs, whole but for the last, that lead to the spots of the loop in turn, begun behind
the dot's own. The dot marks time for exactly what is left of the budget if it comes to a place from
which a whole lap of spots is at no distance, and does not mark time otherwise. -/
theorem counterMarch_route {cue : Cue} (finite : ∀ s ∈ loop, s.Finite) (start : cue.spot.Finite)
    (dot : DotId) (o : Options) (duration : Option UInt32) :
    ∃ (p : Passage) (w : Walk) (count : Nat) (moves : List Move),
      (counterMarch order duration).perform dot scene o cue = .ok p ∧
      o.gait.Rounds loop (order.firstTarget dot) 0 (cue.granted duration) cue count w ∧
      count ≤ loop.length * ((cue.granted duration).toNat + 1) ∧
      w.passage.commands = moves.map .move ∧
      o.gait.Covers (cue.granted duration)
        (cue.spot.legs (headings loop (order.firstTarget dot) count)) moves w.budget ∧
      p.commands = moves.map .move ++ (if w.budget = 0 then [] else
        [.stop (Stop.at (cue.spot.arrival (headings loop (order.firstTarget dot) count))
          o.facing.bearing w.budget o.beatsPerStep true)]) ∧
      (w.budget ≠ 0 ↔ ∃ k,
        exactSum ((cue.spot.legs (headings loop (order.firstTarget dot) k)).map o.gait.beats) <
          (cue.granted duration).toNat ∧
        (cue.spot.arrival (headings loop (order.firstTarget dot) k)).StandsOn
          (headings loop (order.firstTarget dot + k) loop.length)) ∧
      ∀ (s : Spot) (place : Nat),
        s.StandsOn (headings loop place loop.length) ↔ s.StandsOn loop := by
  obtain ⟨count, hcount, hrounds⟩ := o.gait.exists_rounds (cue.granted duration) cue finite
    (order.firstTarget dot) 0 0 (fun _ => start) rfl
  have hperform := perform_counterMarch filled placed dot o duration cue rfl
  generalize o.gait.circle loop (order.firstTarget dot) 0 0 (cue.granted duration) cue = w
    at hrounds hperform
  obtain ⟨moves, hmoves, hcovers⟩ := hrounds.covers
  refine ⟨_, w, count, moves, hperform, hrounds, ?_, hmoves, hcovers, ?_,
    hrounds.budget_ne_zero_iff, fun _ place => standsOn_headings_length place⟩
  · rw [Nat.mul_succ]
    exact hcount
  · refine congrArg₂ (· ++ ·) hmoves ?_
    unfold Options.hold
    split
    · rfl
    · next hleft =>
      obtain ⟨harrival, -⟩ := hrounds.standsOn _ rfl (List.forall_mem_nil _) hleft
      rw [← harrival]
      rfl

end Route

/-- A dot that files to B's spot, back to its own and, on the second lap, half the way to B's. -/
theorem counterMarch_route_cut_on_second_lap :
    ∃ (p : Passage) (w : Walk) (count : Nat),
      (counterMarch [⟨"A"⟩, ⟨"B"⟩] (some 10)).perform ⟨"A"⟩ pairScene ⟨1, .east, none⟩
        ⟨⟨0, 0⟩, 16⟩ = .ok p ∧
      Gait.Rounds ⟨none, 1⟩ [⟨0, 0⟩, ⟨0, 4⟩] 1 0 10 ⟨⟨0, 0⟩, 16⟩ count w ∧
      p.commands.map (fun c => (c.finish, c.duration)) =
        [(⟨0, 4⟩, 4), (⟨0, 0⟩, 4), (⟨0, 2⟩, 2)] := by
  have hrun : ((counterMarch [⟨"A"⟩, ⟨"B"⟩] (some 10)).perform ⟨"A"⟩ pairScene ⟨1, .east, none⟩
      ⟨⟨0, 0⟩, 16⟩).toOption.any (fun p => p.commands.map (fun c => (c.finish, c.duration)) =
        [(⟨0, 4⟩, 4), (⟨0, 0⟩, 4), (⟨0, 2⟩, 2)]) = true := by
    decide +kernel
  obtain ⟨p, hp, hlegs⟩ := exists_ok_of_any hrun
  have filled : ([⟨"A"⟩, ⟨"B"⟩] : LineUp) ≠ [] := List.cons_ne_nil _ _
  have placed : List.map pairScene.here [⟨"A"⟩, ⟨"B"⟩] = List.map some [⟨0, 0⟩, ⟨0, 4⟩] := rfl
  have finite : ∀ s ∈ ([⟨0, 0⟩, ⟨0, 4⟩] : List Spot), s.Finite := by
    unfold Spot.Finite
    decide +kernel
  have start : (Cue.mk ⟨0, 0⟩ 16).spot.Finite := finite ⟨0, 0⟩ List.mem_cons_self
  obtain ⟨q, w, count, -, hq, hrounds, -⟩ :=
    counterMarch_route filled placed finite start ⟨"A"⟩ ⟨1, .east, none⟩ (some 10)
  cases hp.symm.trans hq
  exact ⟨p, w, count, hp, hrounds, of_decide_eq_true hlegs⟩

end Figure

theorem getElem?_rotate_behind {loop : List Spot} (hpos : 0 < loop.length) {slot slot' k : Nat}
    (hslot : (slot' + k) % loop.length = slot) (i : Nat) :
    (loop.rotate k)[(slot' + 1 + i) % loop.length]? = loop[(slot + 1 + i) % loop.length]? := by
  rw [List.getElem?_rotate (Nat.mod_lt _ hpos), ← hslot, Nat.mod_add_mod, Nat.add_assoc (_ % _),
    Nat.mod_add_mod]
  exact congrArg (fun n => loop[n % loop.length]?) (by omega)

section Rotation

variable {order : LineUp} (nodup : order.Nodup) {dot : DotId} (member : dot ∈ order)
include nodup member

theorem LineUp.slot_rotate (k : Nat) :
    (LineUp.slot (order.rotate k) dot + k) % order.length = order.slot dot := by
  have hmem : dot ∈ order.rotate k := List.mem_rotate.mpr member
  have hdot := List.getElem_idxOf (List.idxOf_lt_length_iff.mpr hmem)
  rw [List.getElem_rotate] at hdot
  exact (nodup.idxOf_getElem _ (Nat.mod_lt _ (List.length_pos_of_mem member))).symm.trans
    (congrArg order.idxOf hdot)

/-- Where the order of a counter march is said to begin makes no difference to its dots. -/
theorem Figure.counterMarch_rotate {scene : Scene}
    (placed : ∀ other ∈ order, ∃ s, scene.here other = some s) (k : Nat) (o : Options)
    (duration : Option UInt32) (cue : Cue) :
    ∃ p, (counterMarch order duration).perform dot scene o cue = .ok p ∧
      (counterMarch (order.rotate k) duration).perform dot scene o cue = .ok p := by
  obtain ⟨loop, hloop⟩ := Scene.exists_loop placed
  have hmem : dot ∈ order.rotate k := List.mem_rotate.mpr member
  have hturned : (order.rotate k).map scene.here = (loop.rotate k).map some := by
    rw [List.map_rotate, List.map_rotate, hloop]
  have hlength : order.length = loop.length := by simpa using congrArg List.length hloop
  have hpos : 0 < loop.length := hlength ▸ List.length_pos_of_mem member
  refine ⟨_, perform_counterMarch (List.ne_nil_of_mem member) hloop dot o duration cue rfl,
    perform_counterMarch (List.ne_nil_of_mem hmem) hturned dot o duration cue ?_⟩
  refine o.gait.circle_congr (List.length_rotate ..) _ _ _ _ _ _ fun i => ?_
  rw [LineUp.firstTarget_eq, LineUp.firstTarget_eq, if_pos hmem, if_pos member, List.length_rotate]
  exact getElem?_rotate_behind hpos (hlength ▸ LineUp.slot_rotate nodup member k) i

end Rotation

theorem Figure.counterMarch_rotate_of_pair :
    ∃ p, (counterMarch [⟨"A"⟩, ⟨"B"⟩] (some 6)).perform ⟨"B"⟩ pairScene ⟨1, .east, none⟩
        ⟨⟨0, 4⟩, 16⟩ = .ok p ∧
      (counterMarch [⟨"B"⟩, ⟨"A"⟩] (some 6)).perform ⟨"B"⟩ pairScene ⟨1, .east, none⟩
        ⟨⟨0, 4⟩, 16⟩ = .ok p := by
  have nodup : List.Nodup ([⟨"A"⟩, ⟨"B"⟩] : LineUp) := by decide
  exact Figure.counterMarch_rotate nodup (by decide) (fun other _ => pairScene_here other) 1 _ _ _

end MarchingDrill
