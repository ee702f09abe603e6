import MarchingDrill.Proofs.Continuity.Legs

/-! Following the leader: a dot in line goes to where the dot in front of it stands, and does from
there on what that dot does. The leader walks the marked path and marks time at its end. -/

namespace MarchingDrill

theorem Passage.andThen_assoc (p q r : Passage) :
    (p.andThen q).andThen r = p.andThen (q.andThen r) :=
  congrArg (fun cs => Passage.mk cs r.cue) (List.append_assoc ..)

namespace Options

variable (o : Options)

theorem settle_andThen (ending : Ending) (p q : Passage) :
    o.settle ending (p.andThen q) = p.andThen (o.settle ending q) :=
  Passage.andThen_assoc ..

end Options

theorem LineUp.aheadOf_succ {order : LineUp} {dot : DotId} {spots : List Spot} {place : Nat}
    {s : Spot} (hslot : order.slot dot = place + 1) (hs : spots[place]? = some s) :
    order.aheadOf dot spots = s :: (spots.take place).reverse := by
  rw [aheadOf, hslot, List.take_add_one, hs]
  simp

namespace Figure

theorem perform_followLeader {order : LineUp} {scene : Scene} {spots : List Spot}
    (filled : order ≠ []) (placed : order.map scene.here = spots.map some) (path : List Spot)
    (dot : DotId) (o : Options) (cue : Cue) :
    (followLeader order path).perform dot scene o cue =
      .ok (o.settle .markTime (o.march o.asked (order.aheadOf dot spots ++ path) cue)) := by
  have hne : ¬order.isEmpty = true := by simpa using filled
  rw [perform, if_neg hne, Scene.spots_eq_ok_iff.mpr placed]
  rfl

/-- A dot in line, or outside it as if it came last, first marches to the spot of the dot in front
and then does what that dot would do from there. The leader covers the legs of the path in turn and
marks time for the beats that are left. -/
theorem followLeader_retraces {order : LineUp} (nodup : order.Nodup) {scene : Scene}
    (placed : ∀ dot ∈ order, ∃ s, scene.here dot = some s) (path : List Spot) (dot : DotId)
    (o : Options) (cue : Cue) :
    (∀ place, order.slot dot = place + 1 → ∃ (ahead : DotId) (s : Spot) (q : Passage),
      order[place]? = some ahead ∧ scene.here ahead = some s ∧
      (followLeader order path).perform ahead scene o (o.gait.legTo s cue).cue = .ok q ∧
      (followLeader order path).perform dot scene o cue =
        .ok ((o.gait.legTo s cue).andThen q)) ∧
    (order ≠ [] → order.slot dot = 0 → ∃ (p : Passage) (k : Nat) (moves : List Move)
        (left : UInt32),
      (followLeader order path).perform dot scene o cue = .ok p ∧
      o.gait.Covers cue.beats (cue.spot.legs (path.take k)) moves left ∧
      (left ≠ 0 → path.length ≤ k) ∧
      p.commands = moves.map .move ++ (if left = 0 then [] else
        [.stop (Stop.at (cue.spot.arrival path) o.facing.bearing left o.beatsPerStep true)])) := by
  obtain ⟨spots, hspots⟩ := Scene.exists_loop placed
  constructor
  · intro place hslot
    have hlt : place < order.length := by
      have hle : order.slot dot ≤ order.length := List.idxOf_le_length
      omega
    obtain ⟨s, hs⟩ := placed order[place] (List.getElem_mem hlt)
    have hspot : spots[place]? = some s := by
      have hplace := congrArg (·[place]?) hspots
      simp only [List.getElem?_map, List.getElem?_eq_getElem hlt, Option.map_some, hs] at hplace
      obtain ⟨_, hspot, ⟨⟩⟩ := Option.map_eq_some_iff.mp hplace.symm
      exact hspot
    have hslot' : order.slot order[place] = place := nodup.idxOf_getElem place hlt
    have filled : order ≠ [] := List.ne_nil_of_length_pos (Nat.zero_lt_of_lt hlt)
    refine ⟨_, s, _, List.getElem?_eq_getElem hlt, hs,
      perform_followLeader filled hspots path order[place] o _, ?_⟩
    rw [perform_followLeader filled hspots, LineUp.aheadOf_succ hslot hspot, List.cons_append,
      Options.march_cons, Options.settle_andThen, LineUp.aheadOf, hslot']
  · intro filled hslot
    obtain ⟨k, moves, hmoves, hcovers, hend⟩ := o.march_covers path cue
    have hahead : order.aheadOf dot spots = [] := by
      rw [LineUp.aheadOf, hslot]
      rfl
    have hperform := perform_followLeader filled hspots path dot o cue
    rw [hahead, List.nil_append] at hperform
    refine ⟨_, k, moves, _, hperform, hcovers, fun h => (hend h).1, ?_⟩
    refine congrArg₂ (· ++ ·) hmoves ?_
    unfold Options.hold
    split
    · rfl
    · next hleft =>
      rw [← (hend hleft).2]
      rfl

theorem followLeader_retraces_for_pair :
    ∃ q, (followLeader [⟨"A"⟩, ⟨"B"⟩] [⟨4, 0⟩]).perform ⟨"A"⟩ pairScene ⟨1, .east, none⟩
        (Gait.legTo ⟨none, 1⟩ ⟨0, 0⟩ ⟨⟨0, 4⟩, 16⟩).cue = .ok q ∧
      (followLeader [⟨"A"⟩, ⟨"B"⟩] [⟨4, 0⟩]).perform ⟨"B"⟩ pairScene ⟨1, .east, none⟩
        ⟨⟨0, 4⟩, 16⟩ = .ok ((Gait.legTo ⟨none, 1⟩ ⟨0, 0⟩ ⟨⟨0, 4⟩, 16⟩).andThen q) := by
  have nodup : List.Nodup ([⟨"A"⟩, ⟨"B"⟩] : LineUp) := by decide
  obtain ⟨ahead, s, q, hahead, hs, hq, hp⟩ := (followLeader_retraces nodup
    (fun other _ => pairScene_here other) [⟨4, 0⟩] ⟨"B"⟩ ⟨1, .east, none⟩
    ⟨⟨0, 4⟩, 16⟩).1 0 (by decide)
  cases hahead
  cases hs
  exact ⟨q, hq, hp⟩

end Figure

end MarchingDrill
