import MarchingDrill.Proofs.Continuity.Consumption
import MarchingDrill.Proofs.Continuity.Faults
import MarchingDrill.Proofs.Continuity.Footprint

/-! Regrouping: a list of continuities may be cut in two, and a run of it may be put into a two-step
of its own without the dot in front noticing it. That dot does not wait, the options that the
two-step hands on are those that were in force around it, and how deep a dot is in two-steps is of
no account until the limit is passed. -/

namespace MarchingDrill

/-- Two scenes on the same sheet whose defaults come to the same options for every tag. They may lie
at different depths. -/
structure Scene.Matches (a b : Scene) : Prop where
  sheet : a.sheet = b.sheet
  here : a.here = b.here
  next : a.next = b.next
  options : ∀ tag : Tag, tag.options a.defaults = tag.options b.defaults

theorem Tag.options_handed_on {outer : Tag} (hpace : outer.beatsPerStep = none)
    (hfacing : outer.facing = none) (d : Defaults) (tag : Tag) :
    tag.options ⟨(outer.options d).beatsPerStep, (outer.options d).facing⟩ = tag.options d := by
  have hfaces : (outer.options d).facing = d.facing := by rw [options, hfacing, Option.getD_none]
  have hpaced : (outer.options d).beatsPerStep = max d.beatsPerStep 1 := by
    rw [options, hpace, Option.getD_none]
  rw [hfaces, hpaced, options, options]
  cases tag.beatsPerStep with
  | none => exact congrArg (Options.mk · _ _) (max_max_one d.beatsPerStep)
  | some n => rfl

def Scene.inside (scene : Scene) (o : Options) : Scene :=
  { scene with defaults := ⟨o.beatsPerStep, o.facing⟩, depth := scene.depth + 1 }

@[simp]
theorem Scene.depth_inside (scene : Scene) (o : Options) :
    (scene.inside o).depth = scene.depth + 1 := rfl

theorem Scene.nested_of_lt {scene : Scene} (h : scene.depth < maxNesting) (o : Options) :
    scene.nested o = .ok (scene.inside o) := if_neg (Nat.not_le.mpr h)

theorem Scene.Matches.inside {a b : Scene} (h : a.Matches b) (o : Options) :
    (a.inside o).Matches (b.inside o) := ⟨h.sheet, h.here, h.next, fun _ => rfl⟩

theorem Scene.inside_matches {outer : Tag} (hpace : outer.beatsPerStep = none)
    (hfacing : outer.facing = none) (scene : Scene) :
    (scene.inside (outer.options scene.defaults)).Matches scene :=
  ⟨rfl, rfl, rfl, outer.options_handed_on hpace hfacing scene.defaults⟩

theorem Options.waitBeats_of_leader (o : Options) {order : LineUp} {dot : DotId}
    (hslot : order.slot dot = 0) (cue : Cue) : o.waitBeats order dot cue = 0 := by
  have hlt : order.slot dot < 2 ^ 31 := by
    rw [hslot]
    decide
  have hwait := o.toNat_waitBeats hlt cue
  rw [hslot, Nat.mul_zero, Nat.zero_mul, Nat.zero_min] at hwait
  exact UInt32.toNat_inj.mp hwait

namespace Continuity

variable {dot : DotId}

mutual

theorem perform_of_matches : ∀ (c : Continuity) {a b : Scene}, a.Matches b →
    a.depth + nesting c ≤ maxNesting → b.depth + nesting c ≤ maxNesting →
      ∀ cue, c.perform dot a cue = c.perform dot b cue
  | .figure tag f, a, b, h, _, _, cue => by
    rw [perform, perform, h.options]
    exact Figure.perform_congr h.sheet (fun other _ => congrFun h.here other)
      (congrFun h.next dot) _ cue
  | .twoStep tag order markTime parts, a, b, h, ha, hb, cue => by
    rw [nesting] at ha hb
    rw [perform, perform, h.options]
    split
    · rfl
    · dsimp only
      have hinner := h.inside (tag.options b.defaults)
      rw [Scene.nested_of_lt (by omega), Scene.nested_of_lt (by omega)]
      change performAll dot parts (a.inside _) _ >>= _ = performAll dot parts (b.inside _) _ >>= _
      rw [performAll_of_matches parts hinner (by rw [Scene.depth_inside]; omega)
        (by rw [Scene.depth_inside]; omega)]

theorem performAll_of_matches : ∀ (cs : List Continuity) {a b : Scene}, a.Matches b →
    a.depth + nestingAll cs ≤ maxNesting → b.depth + nestingAll cs ≤ maxNesting →
      ∀ cue, performAll dot cs a cue = performAll dot cs b cue
  | [], _, _, _, _, _, _ => rfl
  | c :: cs, a, b, h, ha, hb, cue => by
    rw [nestingAll] at ha hb
    rw [performAll, performAll, perform_of_matches c h (by omega) (by omega)]
    simp only [performAll_of_matches cs h (by omega : _ ≤ maxNesting) (by omega)]

end

theorem perform_twoStep_of_leader {tag : Tag} (hpace : tag.beatsPerStep = none)
    (hfacing : tag.facing = none) (others : LineUp) (markTime : Bool) {parts : List Continuity}
    {scene : Scene} (hroom : scene.depth + nestingAll parts < maxNesting) (cue : Cue) :
    (twoStep tag (dot :: others) markTime parts).perform dot scene cue =
      performAll dot parts scene cue := by
  have hslot : LineUp.slot (dot :: others) dot = 0 := List.idxOf_cons_self
  have hparts : performAll dot parts (scene.inside (tag.options scene.defaults)) cue =
      performAll dot parts scene cue :=
    performAll_of_matches parts (Scene.inside_matches hpace hfacing scene)
      (by rw [Scene.depth_inside]; omega) hroom.le cue
  rw [perform, if_neg (by simp)]
  dsimp only
  rw [Options.waitBeats_of_leader _ hslot, Options.hold, if_pos rfl, Scene.nested_of_lt (by omega)]
  change performAll dot parts (scene.inside _) cue >>= _ = _
  rw [hparts]
  exact bind_pure (performAll dot parts scene cue)

/-- Continuities may be regrouped. A list does what its first part does and then, from the cue that
this leaves, what the rest does. A run of it may stand in a two-step that sets no options and that
the dot leads: as long as the two-steps then do not lie too deep in each other, the dot does the
same as before or fails with the same fault, and it fails as soon as they do. -/
theorem regrouping_unnoticed (dot : DotId) (xs ys zs : List Continuity) (scene : Scene)
    (cue : Cue) :
    (performAll dot (xs ++ ys) scene cue = do
      let p ← performAll dot xs scene cue
      let q ← performAll dot ys scene p.cue
      return p.andThen q) ∧
    ∀ (tag : Tag) (others : LineUp) (markTime : Bool),
      tag.beatsPerStep = none → tag.facing = none →
      let wrapped := twoStep tag (dot :: others) markTime ys
      (scene.depth + nesting wrapped ≤ maxNesting →
        performAll dot (xs ++ wrapped :: zs) scene cue =
          performAll dot (xs ++ ys ++ zs) scene cue) ∧
      (scene.depth ≤ maxNesting → maxNesting < scene.depth + nesting wrapped →
        ∃ f, performAll dot (xs ++ wrapped :: zs) scene cue = .error f) := by
  refine ⟨performAll_append xs ys scene cue, ?_⟩
  intro tag others markTime hpace hfacing wrapped
  constructor
  · intro hroom
    have hwrapped : ∀ cue, wrapped.perform dot scene cue = performAll dot ys scene cue :=
      perform_twoStep_of_leader hpace hfacing others markTime hroom
    rw [List.append_assoc, performAll_append, performAll_append]
    simp only [performAll, hwrapped, performAll_append]
  · intro hle hdeep
    exact exists_error_append (fun _ => exists_error_of_nesting hle hdeep) zs

def marksAndMarches : List Continuity :=
  [.figure plainTag (.stop true (some 4)),
    .figure plainTag (.counterMarch [⟨"A"⟩, ⟨"B"⟩] (some 6))]

theorem regrouping_unnoticed_by_first_of_pair :
    performAll ⟨"A"⟩ [.twoStep plainTag [⟨"A"⟩, ⟨"B"⟩] false marksAndMarches] pairScene
        ⟨⟨0, 0⟩, 16⟩ =
      performAll ⟨"A"⟩ marksAndMarches pairScene ⟨⟨0, 0⟩, 16⟩ ∧
    performAll ⟨"A"⟩ (marksAndMarches ++ [.twoStep plainTag [⟨"A"⟩, ⟨"B"⟩] true marksAndMarches])
        pairScene ⟨⟨0, 0⟩, 16⟩ =
      performAll ⟨"A"⟩ (marksAndMarches ++ marksAndMarches ++ []) pairScene ⟨⟨0, 0⟩, 16⟩ := by
  have hroom (markTime : Bool) : pairScene.depth +
      nesting (.twoStep plainTag [⟨"A"⟩, ⟨"B"⟩] markTime marksAndMarches) ≤ maxNesting := by
    decide +revert
  exact ⟨((regrouping_unnoticed ⟨"A"⟩ [] marksAndMarches [] pairScene ⟨⟨0, 0⟩, 16⟩).2
      plainTag [⟨"B"⟩] false rfl rfl).1 (hroom false),
    ((regrouping_unnoticed ⟨"A"⟩ marksAndMarches marksAndMarches [] pairScene ⟨⟨0, 0⟩, 16⟩).2
      plainTag [⟨"B"⟩] true rfl rfl).1 (hroom true)⟩

end Continuity

end MarchingDrill
