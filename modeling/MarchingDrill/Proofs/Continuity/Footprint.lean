import MarchingDrill.Proofs.Continuity.Course

/-! Footprints: what a dot looks at while it carries out continuities. Of the other dots it needs
to know the spots of those that a counter march or a leader's file names, and of a two-step only
when its own turn comes. -/

namespace MarchingDrill

/-- The second continuity is the first one to the dot, up to the others in the orders of
two-steps. -/
inductive Continuity.AlikeFor (dot : DotId) : Continuity → Continuity → Prop
  | figure (tag : Tag) (f : Figure) : AlikeFor dot (.figure tag f) (.figure tag f)
  | twoStep (tag : Tag) (markTime : Bool) {order order' : LineUp} {parts parts' : List Continuity}
      (turn : order.slot dot = order'.slot dot) (empty : order = [] ↔ order' = [])
      (alike : List.Forall₂ (AlikeFor dot) parts parts') :
      AlikeFor dot (.twoStep tag order markTime parts) (.twoStep tag order' markTime parts')

namespace Continuity

theorem AlikeFor.refl (dot : DotId) (c : Continuity) : AlikeFor dot c c := by
  cases c with
  | figure tag f => exact .figure tag f
  | twoStep tag order markTime parts =>
    exact .twoStep tag markTime rfl Iff.rfl (List.forall₂_same.mpr fun c _ => AlikeFor.refl dot c)

mutual

/-- The dots in the orders of counter marches and of files behind a leader, at any depth. -/
def watched : Continuity → List DotId
  | figure _ f => f.order?.getD []
  | twoStep _ _ _ parts => watchedAll parts

def watchedAll : List Continuity → List DotId
  | [] => []
  | c :: cs => watched c ++ watchedAll cs

end

end Continuity

structure Scene.AlikeFor (dot : DotId) (others : List DotId) (a b : Scene) : Prop where
  sheet : a.sheet = b.sheet
  here : ∀ other ∈ others, a.here other = b.here other
  next : a.next dot = b.next dot
  defaults : a.defaults = b.defaults
  depth : a.depth = b.depth

section Scene

variable {dot : DotId} {others : List DotId} {a b : Scene}

theorem Scene.AlikeFor.mono {more : List DotId} (h : a.AlikeFor dot more b)
    (hsub : others ⊆ more) : a.AlikeFor dot others b :=
  ⟨h.sheet, fun other hother => h.here other (hsub hother), h.next, h.defaults, h.depth⟩

theorem Scene.spots_congr {order : LineUp} (hsheet : a.sheet = b.sheet)
    (hhere : ∀ other ∈ order, a.here other = b.here other) : a.spots order = b.spots order := by
  induction order with
  | nil => rfl
  | cons first order ih =>
    obtain ⟨hfirst, hrest⟩ := List.forall_mem_cons.mp hhere
    rw [spots, spots, hfirst, hsheet, ih hrest]

theorem Scene.AlikeFor.nested (h : a.AlikeFor dot others b) (o : Options) :
    (∃ f, a.nested o = .error f ∧ b.nested o = .error f) ∨
      ∃ a' b', a.nested o = .ok a' ∧ b.nested o = .ok b' ∧ a'.AlikeFor dot others b' := by
  rw [Scene.nested, Scene.nested, ← h.depth]
  split
  · exact .inl ⟨_, rfl, rfl⟩
  · exact .inr ⟨_, _, rfl, rfl, h.sheet, h.here, h.next, rfl, rfl⟩

theorem Figure.perform_congr {f : Figure} (hsheet : a.sheet = b.sheet)
    (hhere : ∀ other ∈ f.order?.getD [], a.here other = b.here other)
    (hnext : a.next dot = b.next dot) (o : Options) (cue : Cue) :
    f.perform dot a o cue = f.perform dot b o cue := by
  cases f with
  | counterMarch order duration | followLeader order path =>
    have hspots : a.spots order = b.spots order := Scene.spots_congr hsheet hhere
    rw [perform, perform, hspots]
  | even | fountain along ending | diagonal along ending | grapevine ending =>
    rw [perform, perform, hnext]
  | stop | forward | gate => rfl

end Scene

namespace Continuity

variable {dot : DotId}

mutual

/-- A dot does the same in scenes that it cannot tell apart when the continuities look the same to
it. -/
theorem perform_alike : ∀ {c c' : Continuity}, c.AlikeFor dot c' → ∀ {a b : Scene},
    a.AlikeFor dot c.watched b → ∀ cue, c.perform dot a cue = c'.perform dot b cue
  | .figure tag f, _, .figure _ _, a, b, h, cue => by
    rw [perform, perform, ← h.defaults, Figure.perform_congr h.sheet h.here h.next]
  | .twoStep tag order markTime parts, c', hc, a, b, h, cue => by
    cases hc with
    | @twoStep _ _ _ order' _ parts' turn empty alike =>
      have hempty : order.isEmpty = order'.isEmpty := by
        rw [Bool.eq_iff_iff, List.isEmpty_iff, List.isEmpty_iff, empty]
      have hwait : ∀ o : Options, o.waitBeats order dot cue = o.waitBeats order' dot cue := by
        intro o
        rw [Options.waitBeats, Options.waitBeats, turn]
      rw [perform, perform, ← h.defaults, hempty]
      simp only [hwait]
      split
      · rfl
      · rcases h.nested (tag.options a.defaults) with ⟨f, ha, hb⟩ | ⟨a', b', ha, hb, hinner⟩
        · rw [ha, hb]
          rfl
        · rw [ha, hb]
          change (performAll dot parts a' _ >>= _) = performAll dot parts' b' _ >>= _
          rw [performAll_alike alike hinner]

theorem performAll_alike : ∀ {cs cs' : List Continuity}, List.Forall₂ (AlikeFor dot) cs cs' →
    ∀ {a b : Scene}, a.AlikeFor dot (watchedAll cs) b →
      ∀ cue, performAll dot cs a cue = performAll dot cs' b cue
  | [], _, .nil, _, _, _, _ => rfl
  | c :: cs, _, .cons hc hcs, a, b, h, cue => by
    rw [performAll, performAll, perform_alike hc (h.mono (List.subset_append_left ..))]
    simp only [performAll_alike hcs (h.mono (List.subset_append_right ..))]

end

end Continuity

end MarchingDrill
