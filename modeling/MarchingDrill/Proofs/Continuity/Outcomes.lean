import MarchingDrill.Proofs.Continuity.Endless
import MarchingDrill.Proofs.Continuity.Faults

/-! Outcomes: what comes of carrying out continuities, which is a passage, a fault, or nothing at
all when a counter march on the way never ends. A fault is that of the first continuity on the way
that the dot cannot begin, whatever stands behind it. -/

namespace MarchingDrill

def Figure.Ends (dot : DotId) (scene : Scene) (o : Options) (cue : Cue) : Figure → Prop
  | .counterMarch order duration => ∀ loop, scene.spots order = .ok loop →
    ∃ (count : Nat) (w : Walk),
      o.gait.Rounds loop (order.firstTarget dot) 0 (cue.granted duration) cue count w
  | _ => True

namespace Continuity

mutual

def Ends (dot : DotId) : Continuity → Scene → Cue → Prop
  | figure tag f, scene, cue => f.Ends dot scene (tag.options scene.defaults) cue
  | twoStep tag order markTime parts, scene, cue =>
    order ≠ [] → ∀ inner, scene.nested (tag.options scene.defaults) = .ok inner →
      EndsAll dot parts inner (tag.cueInside scene.defaults order markTime dot cue)

def EndsAll (dot : DotId) : List Continuity → Scene → Cue → Prop
  | [], _, _ => True
  | c :: cs, scene, cue =>
    Ends dot c scene cue ∧ ∀ p, c.perform dot scene cue = .ok p → EndsAll dot cs scene p.cue

end

/-- The outcome of carrying out continuities. There is none, neither a passage nor a fault, when a
counter march on the way never ends. One that ends is told by its rounds
(`Figure.perform_of_rounds`). -/
structure Gives (dot : DotId) (cs : List Continuity) (scene : Scene) (cue : Cue)
    (r : Except Fault Passage) : Prop where
  ends : EndsAll dot cs scene cue
  result : performAll dot cs scene cue = r

end Continuity

/-- A dot gets to a place: it carries out all that comes before, and it begins the two-steps around
the place. The scene and the cue that it finds there come last. -/
inductive Place.Reached (dot : DotId) : Scene → Cue → Place → Scene → Cue → Prop
  | behind {scene : Scene} {cue : Cue} {before : List Continuity} {p : Passage}
      (done : Continuity.Gives dot before scene cue (.ok p)) :
      Reached dot scene cue (.behind before) scene p.cue
  | inside {scene inner last : Scene} {cue there : Cue} {before : List Continuity} {p : Passage}
      {tag : Tag} {order : LineUp} {markTime : Bool} {place : Place}
      (done : Continuity.Gives dot before scene cue (.ok p)) (filled : order ≠ [])
      (nests : scene.nested (tag.options scene.defaults) = .ok inner)
      (reached : Reached dot inner (tag.cueInside scene.defaults order markTime dot p.cue) place
        last there) :
      Reached dot scene cue (.inside before tag order markTime place) last there

theorem Figure.perform_of_rounds {order : LineUp} {duration : Option UInt32} {dot : DotId}
    {scene : Scene} {o : Options} {cue : Cue} {loop : List Spot} {count : Nat} {w : Walk}
    (filled : order ≠ []) (placed : order.map scene.here = loop.map some)
    (rounds : o.gait.Rounds loop (order.firstTarget dot) 0 (cue.granted duration) cue count w) :
    (counterMarch order duration).perform dot scene o cue =
      .ok (w.passage.andThen (o.hold true w.budget w.passage.cue)) :=
  perform_counterMarch filled placed dot o duration cue (rounds.circle_eq (.none ..))

namespace Continuity

variable {dot : DotId} {scene : Scene} {cue : Cue} {f : Fault} {p : Passage} {c : Continuity}
  {cs before : List Continuity}

theorem Gives.cons {r : Except Fault Passage} (hends : c.Ends dot scene cue)
    (hc : c.perform dot scene cue = .ok p) (h : Gives dot cs scene p.cue r) :
    Gives dot (c :: cs) scene cue (r.map p.andThen) where
  ends := by
    refine ⟨hends, fun q hq => ?_⟩
    cases hc.symm.trans hq
    exact h.ends
  result := by
    rw [performAll, hc, ← h.result]
    rfl

end Continuity

section Reached

variable {dot : DotId} {scene last : Scene} {cue there : Cue} {place : Place} {p : Passage}
  {c : Continuity} {cs : List Continuity} {f : Fault}

theorem Place.Reached.push (hends : c.Ends dot scene cue) (hc : c.perform dot scene cue = .ok p)
    (h : place.Reached dot scene p.cue last there) :
    (place.push c).Reached dot scene cue last there := by
  cases h with
  | @behind _ _ before q done => exact .behind (p := p.andThen q) (.cons hends hc done)
  | @inside _ _ _ _ _ before q _ _ _ _ done filled nests reached =>
    exact .inside (p := p.andThen q) (.cons hends hc done) filled nests reached

end Reached

namespace Continuity

variable {dot : DotId}

mutual

theorem exists_stuck_of_perform : ∀ {c : Continuity} {scene : Scene} {cue : Cue} {f : Fault},
    c.Ends dot scene cue → c.perform dot scene cue = .error f → ∀ cs : List Continuity,
      ∃ (place : Place) (d : Continuity) (last : Scene) (there : Cue),
      d.At place (c :: cs) ∧ place.Reached dot scene cue last there ∧ d.Stuck last there f
  | .figure tag g, scene, cue, f, _, h, cs =>
    ⟨.behind [], _, scene, cue, .behind [] cs, .behind (p := .rest cue) ⟨trivial, rfl⟩,
      perform_figure_eq_error_iff.mp h⟩
  | .twoStep tag order markTime parts, scene, cue, f, hends, h, cs => by
    have hnothing : Gives dot [] scene cue (.ok (.rest cue)) := ⟨trivial, rfl⟩
    rcases perform_twoStep_eq_error_iff.mp h with hstuck | ⟨hfilled, inner, hinner, hparts⟩
    · exact ⟨.behind [], _, scene, cue, .behind [] cs, .behind hnothing, hstuck⟩
    · obtain ⟨place, d, last, there, hat, hreached, hstuck⟩ :=
        exists_stuck_of_performAll (hends hfilled inner hinner) hparts
      exact ⟨.inside [] tag order markTime place, d, last, there,
        .inside [] tag order markTime hat cs, .inside hnothing hfilled hinner hreached, hstuck⟩

theorem exists_stuck_of_performAll : ∀ {cs : List Continuity} {scene : Scene} {cue : Cue}
    {f : Fault}, EndsAll dot cs scene cue → performAll dot cs scene cue = .error f →
      ∃ (place : Place) (d : Continuity) (last : Scene) (there : Cue),
      d.At place cs ∧ place.Reached dot scene cue last there ∧ d.Stuck last there f
  | [], _, _, _, _, h => by cases h
  | c :: cs, scene, cue, f, ⟨hends, hrest⟩, h => by
    rcases performAll_cons_eq_error_iff.mp h with hc | ⟨p, hp, hcs⟩
    · exact exists_stuck_of_perform hends hc cs
    · obtain ⟨place, d, last, there, hat, hreached, hstuck⟩ :=
        exists_stuck_of_performAll (hrest p hp) hcs
      exact ⟨place.push c, d, last, there, hat.push c, hreached.push hends hp, hstuck⟩

end

section Outcome

variable {scene : Scene} {cue : Cue}

end Outcome

mutual

theorem ends_of_finite : ∀ {c : Continuity} {scene : Scene} (cue : Cue),
    (∀ other s, scene.here other = some s → s.Finite) → c.Ends dot scene cue
  | .figure tag g, scene, cue, finite => by
    cases g with
    | counterMarch order duration =>
      intro loop hloop
      refine Gait.exists_rounds_of_finite (fun s hs => ?_) ..
      obtain ⟨other, -, hother⟩ := Scene.exists_here_of_spots hloop hs
      exact finite other s hother
    | _ => trivial
  | .twoStep tag order markTime parts, scene, cue, finite => by
    intro _ inner nests
    obtain ⟨-, rfl⟩ := Scene.nested_eq_ok nests
    exact endsAll_of_finite _ finite

theorem endsAll_of_finite : ∀ {cs : List Continuity} {scene : Scene} (cue : Cue),
    (∀ other s, scene.here other = some s → s.Finite) → EndsAll dot cs scene cue
  | [], _, _, _ => trivial
  | _ :: _, _, cue, finite => ⟨ends_of_finite cue finite, fun p _ => endsAll_of_finite p.cue finite⟩

end

end Continuity

def nowhereScene : Scene where
  sheet := ⟨0⟩
  here dot := if dot = ⟨"A"⟩ then some ⟨0, 0⟩ else some ⟨0 / 0, 0 / 0⟩
  next _ := none
  defaults := ⟨1, .east⟩
  depth := 0

/-- Nothing ever comes of a counter march to and from such a spot, nor of what follows it. -/
theorem Continuity.gives_nothing_nowhere (more : List Continuity) (r : Except Fault Passage) :
    ¬Gives ⟨"A"⟩ (.figure plainTag (.counterMarch [⟨"A"⟩, ⟨"B"⟩] none) :: more) nowhereScene
      ⟨⟨0, 0⟩, 8⟩ r := by
  rintro ⟨⟨hends, -⟩, -⟩
  obtain ⟨count, w, hrounds⟩ := hends [⟨0, 0⟩, ⟨0 / 0, 0 / 0⟩] rfl
  have hcircle := hrounds.circle_eq (.none ..)
  have hleft : w.budget ≠ 0 := hcircle ▸ by decide +kernel
  obtain ⟨-, hstands⟩ := hrounds.standsOn _ rfl (List.forall_mem_nil _) hleft
  have hsteps : (w.passage.cue.spot.steps ⟨0, 0⟩ == 0) = false := hcircle ▸ by decide +kernel
  rw [hstands _ List.mem_cons_self] at hsteps
  cases hsteps

end MarchingDrill
