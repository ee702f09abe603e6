import MarchingDrill.Proofs.Continuity.Course

/-! Faults: which continuities stop a dot. What a dot cannot begin is told by the continuity itself,
by the spots on the sheet and by the beats that are left when the dot gets there. -/

namespace MarchingDrill

/-- A place in a list of continuities: behind others, or among the parts of a two-step that stands
behind others. -/
inductive Place where
  | behind (before : List Continuity)
  | inside (before : List Continuity) (tag : Tag) (order : LineUp) (markTime : Bool) (place : Place)

def Place.depth : Place → Nat
  | behind _ => 0
  | inside _ _ _ _ place => place.depth + 1

def Place.push (c : Continuity) : Place → Place
  | behind before => behind (c :: before)
  | inside before tag order markTime place => inside (c :: before) tag order markTime place

def Tag.cueInside (tag : Tag) (d : Defaults) (order : LineUp) (markTime : Bool) (dot : DotId)
    (cue : Cue) : Cue :=
  ((tag.options d).hold markTime ((tag.options d).waitBeats order dot cue) cue).cue

namespace Continuity

inductive At (c : Continuity) : Place → List Continuity → Prop
  | behind (before after : List Continuity) : At c (.behind before) (before ++ c :: after)
  | inside (before : List Continuity) (tag : Tag) (order : LineUp) (markTime : Bool) {place : Place}
      {parts : List Continuity} (at_parts : At c place parts) (after : List Continuity) :
      At c (.inside before tag order markTime place)
        (before ++ .twoStep tag order markTime parts :: after)

/-- A dot cannot begin a continuity, whatever the parts of the continuity are. -/
inductive Stuck (scene : Scene) (cue : Cue) : Continuity → Fault → Prop
  | emptyOrder {c : Continuity} (empty : c.order? = some []) :
      Stuck scene cue c (.emptyOrder c.label)
  | counterMarch {tag : Tag} {order : LineUp} {duration : Option UInt32} {other : DotId}
      (budget : cue.granted duration ≠ 0)
      (missing : order.find? (fun dot => (scene.here dot).isNone) = some other) :
      Stuck scene cue (.figure tag (.counterMarch order duration)) (.missingSpot other scene.sheet)
  | followLeader {tag : Tag} {order : LineUp} {path : List Spot} {other : DotId}
      (missing : order.find? (fun dot => (scene.here dot).isNone) = some other) :
      Stuck scene cue (.figure tag (.followLeader order path)) (.missingSpot other scene.sheet)
  | nestedTooDeep {tag : Tag} {order : LineUp} {markTime : Bool} {parts : List Continuity}
      (filled : order ≠ []) (deep : maxNesting ≤ scene.depth) :
      Stuck scene cue (.twoStep tag order markTime parts) (.nestedTooDeep maxNesting)

mutual

def nesting : Continuity → Nat
  | figure .. => 0
  | twoStep _ _ _ parts => nestingAll parts + 1

def nestingAll : List Continuity → Nat
  | [] => 0
  | c :: cs => max (nesting c) (nestingAll cs)

end

end Continuity

theorem bind_eq_error_iff {ε α β : Type} {x : Except ε α} {f : α → Except ε β} {e : ε} :
    (x >>= f) = .error e ↔ x = .error e ∨ ∃ a, x = .ok a ∧ f a = .error e := by
  cases x with
  | error e' => simp [bind, Except.bind]
  | ok a => simp [bind, Except.bind]

namespace Scene

theorem spots_eq_error_iff {scene : Scene} {order : LineUp} {f : Fault} :
    scene.spots order = .error f ↔ ∃ other,
      order.find? (fun dot => (scene.here dot).isNone) = some other ∧
        f = .missingSpot other scene.sheet := by
  induction order with
  | nil => simp [spots]
  | cons dot order ih =>
    rw [spots, List.find?_cons]
    cases hdot : scene.here dot with
    | none => simp [eq_comm]
    | some spot =>
      dsimp only [Option.isNone_some]
      rw [← ih, bind_eq_error_iff, or_iff_left]
      rintro ⟨_, -, ⟨⟩⟩

theorem spots_eq_ok_iff {scene : Scene} {order : LineUp} {spots : List Spot} :
    scene.spots order = .ok spots ↔ order.map scene.here = spots.map some := by
  induction order generalizing spots with
  | nil =>
    rw [Scene.spots, List.map_nil, eq_comm (a := []), List.map_eq_nil_iff]
    exact ⟨fun h => (Except.ok.inj h).symm, fun h => congrArg Except.ok h.symm⟩
  | cons dot dots ih =>
    rw [Scene.spots, List.map_cons]
    cases hdot : scene.here dot with
    | none => cases spots <;> simp
    | some spot =>
      cases spots with
      | nil =>
        refine iff_of_false (fun h => ?_) (List.cons_ne_nil _ _)
        obtain ⟨_, -, h⟩ := exists_of_bind_eq_ok h
        cases h
      | cons s ss =>
        rw [List.map_cons, List.cons.injEq, Option.some.injEq, ← ih]
        constructor
        · intro h
          obtain ⟨_, hss, h⟩ := exists_of_bind_eq_ok h
          cases h
          exact ⟨rfl, hss⟩
        · rintro ⟨rfl, hss⟩
          exact congrArg (· >>= fun rest => Except.ok (spot :: rest)) hss

theorem exists_here_of_spots {scene : Scene} {order : LineUp} {loop : List Spot}
    (h : scene.spots order = .ok loop) {s : Spot} (hs : s ∈ loop) :
    ∃ other ∈ order, scene.here other = some s := by
  rw [← List.mem_map, spots_eq_ok_iff.mp h]
  exact List.mem_map_of_mem hs

theorem exists_loop {scene : Scene} {order : LineUp}
    (placed : ∀ dot ∈ order, ∃ s, scene.here dot = some s) :
    ∃ loop : List Spot, order.map scene.here = loop.map some := by
  have hrange : order.map scene.here ∈ Set.range (List.map some) := by
    rw [Set.range_list_map]
    exact List.forall_mem_map.mpr fun dot hdot => (placed dot hdot).imp fun _ => Eq.symm
  obtain ⟨loop, hloop⟩ := hrange
  exact ⟨loop, hloop.symm⟩

theorem nested_eq_ok {scene inner : Scene} {o : Options} (h : scene.nested o = .ok inner) :
    scene.depth < maxNesting ∧ inner =
      { scene with defaults := ⟨o.beatsPerStep, o.facing⟩, depth := scene.depth + 1 } := by
  rw [nested] at h
  split at h
  · cases h
  · next hdeep =>
    cases h
    exact ⟨Nat.lt_of_not_le hdeep, rfl⟩

theorem nested_eq_error_iff {scene : Scene} {o : Options} {f : Fault} :
    scene.nested o = .error f ↔ maxNesting ≤ scene.depth ∧ f = .nestedTooDeep maxNesting := by
  rw [nested]
  split
  · next hdeep => simp [hdeep, eq_comm]
  · next hdeep => simp [hdeep]

end Scene

namespace Continuity

variable {dot : DotId}

section Error

variable {scene : Scene} {cue : Cue} {f : Fault} {tag : Tag} {order : LineUp}

theorem stuck_iff_of_empty {c : Continuity} (empty : c.order? = some []) :
    c.Stuck scene cue f ↔ .emptyOrder c.label = f := by
  constructor
  · intro h
    cases h with
    | emptyOrder => rfl
    | counterMarch _ missing | followLeader missing =>
      cases empty
      cases missing
    | nestedTooDeep filled =>
      cases empty
      exact absurd rfl filled
  · rintro rfl
    exact .emptyOrder empty

theorem stuck_counterMarch_iff (filled : order ≠ []) {duration : Option UInt32} :
    (figure tag (.counterMarch order duration)).Stuck scene cue f ↔
      cue.granted duration ≠ 0 ∧ scene.spots order = .error f := by
  rw [Scene.spots_eq_error_iff]
  constructor
  · intro h
    cases h with
    | emptyOrder empty => exact absurd (Option.some.inj empty) filled
    | counterMarch budget missing => exact ⟨budget, _, missing, rfl⟩
  · rintro ⟨budget, other, missing, rfl⟩
    exact .counterMarch budget missing

theorem stuck_followLeader_iff (filled : order ≠ []) {path : List Spot} :
    (figure tag (.followLeader order path)).Stuck scene cue f ↔ scene.spots order = .error f := by
  rw [Scene.spots_eq_error_iff]
  constructor
  · intro h
    cases h with
    | emptyOrder empty => exact absurd (Option.some.inj empty) filled
    | followLeader missing => exact ⟨_, missing, rfl⟩
  · rintro ⟨other, missing, rfl⟩
    exact .followLeader missing

theorem stuck_twoStep_iff (filled : order ≠ []) {markTime : Bool} {parts : List Continuity}
    {o : Options} :
    (twoStep tag order markTime parts).Stuck scene cue f ↔ scene.nested o = .error f := by
  rw [Scene.nested_eq_error_iff]
  constructor
  · intro h
    cases h with
    | emptyOrder empty => exact absurd (Option.some.inj empty) filled
    | nestedTooDeep _ deep => exact ⟨deep, rfl⟩
  · rintro ⟨deep, rfl⟩
    exact .nestedTooDeep filled deep

theorem perform_figure_eq_error_iff {g : Figure} :
    (figure tag g).perform dot scene cue = .error f ↔ (figure tag g).Stuck scene cue f := by
  rw [perform]
  cases g with
  | counterMarch order duration =>
    rw [Figure.perform]
    by_cases hempty : order = []
    · subst hempty
      rw [stuck_iff_of_empty rfl]
      exact iff_of_eq (Except.error.injEq _ f)
    · rw [stuck_counterMarch_iff hempty, if_neg (by simpa using hempty)]
      by_cases hbudget : cue.granted duration = 0
      · rw [if_pos hbudget]
        exact iff_of_false (fun h => by cases h) fun h => h.1 hbudget
      · rw [if_neg hbudget, bind_eq_error_iff, and_iff_right hbudget, or_iff_left]
        rintro ⟨_, -, ⟨⟩⟩
  | followLeader order path =>
    rw [Figure.perform]
    by_cases hempty : order = []
    · subst hempty
      rw [stuck_iff_of_empty rfl]
      exact iff_of_eq (Except.error.injEq _ f)
    · rw [stuck_followLeader_iff hempty, if_neg (by simpa using hempty), bind_eq_error_iff,
        or_iff_left]
      rintro ⟨_, -, ⟨⟩⟩
  | _ =>
    refine iff_of_false (fun h => ?_) fun h => ?_
    · cases h
    · cases h with
      | emptyOrder empty => cases empty

theorem perform_twoStep_eq_error_iff {markTime : Bool} {parts : List Continuity} :
    (twoStep tag order markTime parts).perform dot scene cue = .error f ↔
      (twoStep tag order markTime parts).Stuck scene cue f ∨
        order ≠ [] ∧ ∃ inner, scene.nested (tag.options scene.defaults) = .ok inner ∧
          performAll dot parts inner (tag.cueInside scene.defaults order markTime dot cue) =
            .error f := by
  rw [perform]
  by_cases hempty : order = []
  · subst hempty
    rw [stuck_iff_of_empty rfl, or_iff_left fun h => h.1 rfl]
    exact iff_of_eq (Except.error.injEq _ f)
  · rw [if_neg (by simpa using hempty), stuck_twoStep_iff hempty, and_iff_right hempty]
    dsimp only
    rw [bind_eq_error_iff]
    refine or_congr_right (exists_congr fun inner => and_congr_right fun _ => ?_)
    rw [bind_eq_error_iff, or_iff_left]
    · rfl
    · rintro ⟨_, -, ⟨⟩⟩

theorem performAll_cons_eq_error_iff {c : Continuity} {cs : List Continuity} :
    performAll dot (c :: cs) scene cue = .error f ↔ c.perform dot scene cue = .error f ∨
      ∃ p, c.perform dot scene cue = .ok p ∧ performAll dot cs scene p.cue = .error f := by
  rw [performAll, bind_eq_error_iff]
  refine or_congr_right (exists_congr fun p => and_congr_right fun _ => ?_)
  rw [bind_eq_error_iff, or_iff_left]
  rintro ⟨_, -, ⟨⟩⟩

theorem performAll_append (xs ys : List Continuity) (scene : Scene) (cue : Cue) :
    performAll dot (xs ++ ys) scene cue = do
      let p ← performAll dot xs scene cue
      let q ← performAll dot ys scene p.cue
      return p.andThen q := by
  induction xs generalizing cue with
  | nil => exact (bind_pure (performAll dot ys scene cue)).symm
  | cons c xs ih =>
    simp only [List.cons_append, performAll, ih, bind_assoc, pure_bind, Passage.andThen,
      List.append_assoc]

theorem performAll_append_eq_error_iff {xs ys : List Continuity} :
    performAll dot (xs ++ ys) scene cue = .error f ↔ performAll dot xs scene cue = .error f ∨
      ∃ p, performAll dot xs scene cue = .ok p ∧ performAll dot ys scene p.cue = .error f := by
  rw [performAll_append, bind_eq_error_iff]
  refine or_congr_right (exists_congr fun p => and_congr_right fun _ => ?_)
  rw [bind_eq_error_iff, or_iff_left]
  rintro ⟨_, -, ⟨⟩⟩

end Error

theorem At.push {c : Continuity} {place : Place} {cs : List Continuity} (h : c.At place cs)
    (d : Continuity) : c.At (place.push d) (d :: cs) := by
  cases h with
  | behind before after => exact .behind (d :: before) after
  | inside before tag order markTime at_parts after =>
    exact .inside (d :: before) tag order markTime at_parts after

theorem perform_of_stuck {c : Continuity} {scene : Scene} {cue : Cue} {f : Fault}
    (h : c.Stuck scene cue f) : c.perform dot scene cue = .error f := by
  cases c with
  | figure tag g => exact perform_figure_eq_error_iff.mpr h
  | twoStep tag order markTime parts => exact perform_twoStep_eq_error_iff.mpr (.inl h)

section Blocked

variable {scene : Scene} {cue : Cue}

theorem exists_error_twoStep {tag : Tag} {order : LineUp} {markTime : Bool}
    {parts : List Continuity} (h : ∀ (inner : Scene) (cue : Cue), inner.here = scene.here →
      scene.depth < maxNesting → inner.depth = scene.depth + 1 →
      ∃ f, performAll dot parts inner cue = .error f) :
    ∃ f, (twoStep tag order markTime parts).perform dot scene cue = .error f := by
  by_cases hempty : order = []
  · exact ⟨_, perform_of_stuck (.emptyOrder (congrArg some hempty))⟩
  · cases hnests : scene.nested (tag.options scene.defaults) with
    | error f =>
      exact ⟨f, perform_of_stuck ((stuck_twoStep_iff hempty).mpr hnests)⟩
    | ok inner =>
      obtain ⟨hroom, hinner⟩ := Scene.nested_eq_ok hnests
      obtain ⟨f, hf⟩ := h inner (tag.cueInside scene.defaults order markTime dot cue)
        (by rw [hinner]) hroom (by rw [hinner])
      exact ⟨f, perform_twoStep_eq_error_iff.mpr (.inr ⟨hempty, inner, hnests, hf⟩)⟩

theorem exists_error_append {before : List Continuity} {c : Continuity}
    (h : ∀ cue, ∃ f, c.perform dot scene cue = .error f) (after : List Continuity) :
    ∃ f, performAll dot (before ++ c :: after) scene cue = .error f := by
  cases hbefore : performAll dot before scene cue with
  | error f => exact ⟨f, performAll_append_eq_error_iff.mpr (.inl hbefore)⟩
  | ok p =>
    obtain ⟨f, hf⟩ := h p.cue
    exact ⟨f, performAll_append_eq_error_iff.mpr (.inr ⟨p, hbefore,
      performAll_cons_eq_error_iff.mpr (.inl hf)⟩)⟩

end Blocked

mutual

theorem exists_error_of_nesting : ∀ {c : Continuity} {scene : Scene} {cue : Cue},
    scene.depth ≤ maxNesting → maxNesting < scene.depth + nesting c →
      ∃ f, c.perform dot scene cue = .error f
  | .figure .., _, _, hle, hlt => absurd hlt (Nat.not_lt.mpr hle)
  | .twoStep tag order markTime parts, scene, cue, hle, hlt => by
    refine exists_error_twoStep fun inner cue _ hroom hdepth => ?_
    refine exists_error_of_nestingAll (hdepth ▸ hroom) ?_
    rw [nesting] at hlt
    omega

theorem exists_error_of_nestingAll : ∀ {cs : List Continuity} {scene : Scene} {cue : Cue},
    scene.depth ≤ maxNesting → maxNesting < scene.depth + nestingAll cs →
      ∃ f, performAll dot cs scene cue = .error f
  | [], _, _, hle, hlt => absurd hlt (Nat.not_lt.mpr hle)
  | c :: cs, scene, cue, hle, hlt => by
    rw [nestingAll, ← Nat.add_max_add_left, lt_max_iff] at hlt
    rcases hlt with hc | hcs
    · obtain ⟨f, hf⟩ := exists_error_of_nesting hle hc
      exact ⟨f, performAll_cons_eq_error_iff.mpr (.inl hf)⟩
    · cases hperform : c.perform dot scene cue with
      | error f => exact ⟨f, performAll_cons_eq_error_iff.mpr (.inl hperform)⟩
      | ok p =>
        obtain ⟨f, hf⟩ : ∃ f, performAll dot cs scene p.cue = .error f :=
          exists_error_of_nestingAll hle hcs
        exact ⟨f, performAll_cons_eq_error_iff.mpr (.inr ⟨p, hperform, hf⟩)⟩

end

end Continuity

end MarchingDrill
