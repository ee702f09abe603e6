import MarchingDrill.Proofs.Continuity.CounterMarch

/-! Last in line: a dot that an order leaves out does what it would do at the order's end. A file
behind a leader and a two-step take it for the last one, and a counter march sends it where its last
dot goes. -/

namespace MarchingDrill

section Joined

variable {order : LineUp} {dot : DotId} (outside : dot ∉ order)
include outside

theorem LineUp.joined_of_outside : order.joined dot = order ++ [dot] := if_neg outside

theorem LineUp.slot_of_outside : order.slot dot = order.length := List.idxOf_eq_length outside

theorem LineUp.joined_ne_nil : order.joined dot ≠ [] := by
  rw [joined_of_outside outside]
  exact List.append_ne_nil_of_right_ne_nil _ (List.cons_ne_nil _ _)

theorem LineUp.slot_joined : (order.joined dot).slot dot = order.slot dot := by
  rw [joined_of_outside outside, slot_of_outside outside, slot,
    List.idxOf_append_of_notMem outside, List.idxOf_cons_self, Nat.add_zero]

end Joined

theorem LineUp.firstTarget_of_last {order : LineUp} {last : DotId}
    (hlast : order.getLast? = some last) (once : order.count last = 1) :
    order.firstTarget last = order.length := by
  obtain ⟨front, rfl⟩ := List.getLast?_eq_some_iff.mp hlast
  have hfront : last ∉ front := by
    rw [List.count_append, List.count_singleton_self] at once
    exact List.count_eq_zero.mp (by omega)
  rw [firstTarget_eq, if_pos List.mem_concat_self, slot, List.idxOf_append_of_notMem hfront,
    List.idxOf_cons_self, List.length_append]
  rfl

theorem bind_congr_of_ok {ε α β : Type} {x : Except ε α} {f g : α → Except ε β}
    (h : ∀ a, x = .ok a → f a = g a) : x >>= f = x >>= g := by
  cases x with
  | error e => rfl
  | ok a => exact h a rfl

theorem Scene.spots_append (scene : Scene) (xs ys : LineUp) :
    scene.spots (xs ++ ys) = do return (← scene.spots xs) ++ (← scene.spots ys) := by
  induction xs with
  | nil => exact (bind_pure (scene.spots ys)).symm
  | cons dot xs ih =>
    rw [List.cons_append, spots, spots, ih]
    cases scene.here dot with
    | none => rfl
    | some s =>
      cases scene.spots xs with
      | error f => rfl
      | ok ss => cases scene.spots ys <;> rfl

theorem Scene.length_spots {scene : Scene} {order : LineUp} {spots : List Spot}
    (h : scene.spots order = .ok spots) : spots.length = order.length := by
  simpa using (congrArg List.length (Scene.spots_eq_ok_iff.mp h)).symm

section Joined

variable {order : LineUp} {dot : DotId} (outside : dot ∉ order)
include outside

theorem Scene.spots_joined {scene : Scene} {s : Spot} (placed : scene.here dot = some s) :
    scene.spots (order.joined dot) = do return (← scene.spots order) ++ [s] := by
  have hdot : scene.spots [dot] = .ok [s] := by
    rw [spots, placed]
    rfl
  rw [LineUp.joined_of_outside outside, spots_append, hdot]
  rfl

theorem LineUp.aheadOf_joined {spots : List Spot} (hlength : spots.length = order.length)
    (s : Spot) : (order.joined dot).aheadOf dot (spots ++ [s]) = order.aheadOf dot spots := by
  rw [aheadOf, aheadOf, slot_joined outside, slot_of_outside outside, ← hlength, List.take_left,
    List.take_length]

theorem Figure.followLeader_joined (filled : order ≠ []) {scene : Scene} {s : Spot}
    (placed : scene.here dot = some s) (path : List Spot) (o : Options) (cue : Cue) :
    (followLeader (order.joined dot) path).perform dot scene o cue =
      (followLeader order path).perform dot scene o cue := by
  have hjoined := LineUp.joined_ne_nil outside
  rw [perform, perform, if_neg (List.isEmpty_iff.not.mpr hjoined),
    if_neg (List.isEmpty_iff.not.mpr filled), Scene.spots_joined outside placed, bind_assoc]
  refine bind_congr_of_ok fun spots hspots => ?_
  rw [pure_bind, LineUp.aheadOf_joined outside (Scene.length_spots hspots)]

theorem Continuity.twoStep_joined (filled : order ≠ []) (tag : Tag) (markTime : Bool)
    (parts : List Continuity) (scene : Scene) (cue : Cue) :
    (twoStep tag (order.joined dot) markTime parts).perform dot scene cue =
      (twoStep tag order markTime parts).perform dot scene cue := by
  have hwait (o : Options) :
      o.waitBeats (order.joined dot) dot cue = o.waitBeats order dot cue := by
    rw [Options.waitBeats, Options.waitBeats, LineUp.slot_joined outside]
  have hjoined := LineUp.joined_ne_nil outside
  rw [perform, perform, if_neg (List.isEmpty_iff.not.mpr hjoined),
    if_neg (List.isEmpty_iff.not.mpr filled)]
  simp only [hwait]

theorem Figure.counterMarch_outside {last : DotId} (hlast : order.getLast? = some last)
    (once : order.count last = 1) (scene : Scene) (duration : Option UInt32) (o : Options)
    (cue : Cue) :
    (counterMarch order duration).perform dot scene o cue =
      (counterMarch order duration).perform last scene o cue := by
  rw [perform, perform]
  split
  · rfl
  · split
    · rfl
    · refine bind_congr_of_ok fun spots hspots => ?_
      have hturn : Gait.circle ⟨o.asked, o.beatsPerStep⟩ spots (order.firstTarget dot) 0 0
          (cue.granted duration) cue = Gait.circle ⟨o.asked, o.beatsPerStep⟩ spots
          (order.firstTarget last) 0 0 (cue.granted duration) cue := by
        refine Gait.circle_congr _ rfl _ _ _ _ _ _ fun i => ?_
        rw [LineUp.firstTarget_of_last hlast once, LineUp.firstTarget_eq, if_neg outside,
          ← Scene.length_spots hspots, Nat.zero_add, Nat.add_mod_left]
      rw [hturn]

end Joined

/-- An order takes a dot that it leaves out for the last one in line. A file behind a leader and a
two-step tell it what they would if it stood at the end of their order, and a counter march tells it
what it tells the last dot of the order, if that dot is there only once. -/
theorem outsider_comes_last {order : LineUp} (filled : order ≠ []) {dot : DotId}
    (outside : dot ∉ order) {scene : Scene} (placed : ∃ s, scene.here dot = some s) (cue : Cue) :
    order.joined dot = order ++ [dot] ∧
    (∀ (path : List Spot) (o : Options),
      (Figure.followLeader order path).perform dot scene o cue =
        (Figure.followLeader (order.joined dot) path).perform dot scene o cue) ∧
    (∀ (tag : Tag) (markTime : Bool) (parts : List Continuity),
      (Continuity.twoStep tag order markTime parts).perform dot scene cue =
        (Continuity.twoStep tag (order.joined dot) markTime parts).perform dot scene cue) ∧
    ∀ last, order.getLast? = some last → order.count last = 1 →
      ∀ (duration : Option UInt32) (o : Options),
        (Figure.counterMarch order duration).perform dot scene o cue =
          (Figure.counterMarch order duration).perform last scene o cue := by
  obtain ⟨s, hs⟩ := placed
  refine ⟨LineUp.joined_of_outside outside, fun path o => ?_, fun tag markTime parts => ?_,
    fun last hlast once duration o => ?_⟩
  · exact (Figure.followLeader_joined outside filled hs path o cue).symm
  · exact (Continuity.twoStep_joined outside filled tag markTime parts scene cue).symm
  · exact Figure.counterMarch_outside outside hlast once scene duration o cue

theorem outsider_comes_last_behind_one :
    (Figure.followLeader [⟨"A"⟩] [⟨4, 0⟩]).perform ⟨"B"⟩ pairScene ⟨1, .east, none⟩ ⟨⟨0, 4⟩, 16⟩ =
      (Figure.followLeader [⟨"A"⟩, ⟨"B"⟩] [⟨4, 0⟩]).perform ⟨"B"⟩ pairScene ⟨1, .east, none⟩
        ⟨⟨0, 4⟩, 16⟩ ∧
    (Figure.counterMarch [⟨"A"⟩] none).perform ⟨"B"⟩ pairScene ⟨1, .east, none⟩ ⟨⟨0, 4⟩, 16⟩ =
      (Figure.counterMarch [⟨"A"⟩] none).perform ⟨"A"⟩ pairScene ⟨1, .east, none⟩
        ⟨⟨0, 4⟩, 16⟩ := by
  have filled : ([⟨"A"⟩] : LineUp) ≠ [] := List.cons_ne_nil _ _
  have outside : (⟨"B"⟩ : DotId) ∉ ([⟨"A"⟩] : LineUp) := by decide
  obtain ⟨-, hfollow, -, hmarch⟩ :=
    outsider_comes_last filled outside (pairScene_here ⟨"B"⟩) ⟨⟨0, 4⟩, 16⟩
  exact ⟨hfollow _ _, hmarch ⟨"A"⟩ rfl (by decide) none _⟩

end MarchingDrill
