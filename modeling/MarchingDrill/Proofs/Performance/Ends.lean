import MarchingDrill.Performance.Track
import MarchingDrill.Proofs.Continuity.Conservation

/-! Ends: where the beats of one thing after the other end. As long as all the beats are a count of
32 bits, every end is the sum of the beats up to it. What continuities make of a sheet is never
more. -/

namespace MarchingDrill

@[simp]
theorem length_endsFrom (start : UInt32) (ns : List UInt32) :
    (endsFrom start ns).length = ns.length := by
  induction ns generalizing start with
  | nil => rfl
  | cons n ns ih => rw [endsFrom, List.length_cons, List.length_cons, ih]

theorem toNat_endsFrom {start : UInt32} {ns : List UInt32}
    (h : start.toNat + exactSum ns < 2 ^ 32) {k : Nat} (hk : k < ns.length) :
    (endsFrom start ns)[k]?.map UInt32.toNat =
      some (start.toNat + exactSum (ns.take (k + 1))) := by
  induction ns generalizing start k with
  | nil => cases hk
  | cons n ns ih =>
    rw [exactSum_cons] at h
    have hadd : (start + n).toNat = start.toNat + n.toNat := toNat_add_of_lt (by omega)
    cases k with
    | zero =>
      rw [endsFrom, List.getElem?_cons_zero, Option.map_some, hadd, List.take_succ_cons,
        List.take_zero, exactSum_cons, exactSum_nil]
      rfl
    | succ k =>
      rw [endsFrom, List.getElem?_cons_succ, ih (by omega) (Nat.lt_of_succ_lt_succ hk), hadd,
        List.take_succ_cons, exactSum_cons, Nat.add_assoc]

theorem endsFrom_append (start : UInt32) (ms ns : List UInt32) :
    endsFrom start (ms ++ ns) = endsFrom start ms ++ endsFrom (start + ms.sum) ns := by
  induction ms generalizing start with
  | nil => rw [List.nil_append, List.sum_nil, UInt32.add_zero, endsFrom, List.nil_append]
  | cons m ms ih =>
    rw [List.cons_append, endsFrom, endsFrom, ih, List.sum_cons, UInt32.add_assoc, List.cons_append]

theorem getLastD_endsFrom (start : UInt32) (ns : List UInt32) :
    (endsFrom start ns).getLastD start = start + ns.sum := by
  induction ns generalizing start with
  | nil => exact (UInt32.add_zero start).symm
  | cons n ns ih => rw [endsFrom, List.getLastD_cons, ih, List.sum_cons, UInt32.add_assoc]

theorem lastEnd_endsFrom (ns : List UInt32) : lastEnd (endsFrom 0 ns) = ns.sum := by
  rw [lastEnd, getLastD_endsFrom, UInt32.zero_add]

theorem Segment.beats_eq_sum (g : Segment) : g.beats = (g.commands.map Command.duration).sum :=
  lastEnd_endsFrom _

theorem Track.total_eq_sum (t : Track) : t.total = (t.stays.map Stay.beats).sum :=
  lastEnd_endsFrom _

/-- Continuities spend the beats of their cue: the beats of their commands and of the cue that they
leave make up those of the cue they were given, the cues on the way never give less than a command
takes, and the sums of beats and the ends of commands are those of natural numbers. The same goes
for the budgets of routes and circles. -/
theorem beats_conserved :
    (∀ (dot : DotId) (cs : List Continuity) (scene : Scene) (cue : Cue) (p : Passage),
      Continuity.performAll dot cs scene cue = .ok p →
        totalBeats p.commands + p.cue.beats.toNat = cue.beats.toNat ∧
        p.commands.foldl Cue.after cue = p.cue ∧ Affords cue.beats p.commands ∧
        p.beats.toNat = totalBeats p.commands ∧
        ∀ (sheet : SheetId) (k : Nat), k < p.commands.length →
          (Segment.mk sheet p.commands).ends[k]?.map UInt32.toNat =
            some (totalBeats (p.commands.take (k + 1)))) ∧
    (∀ (g : Gait) (spots : List Spot) (budget : UInt32) (cue : Cue),
      (g.walk spots budget cue).Within budget ∧
        Affords cue.beats (g.walk spots budget cue).passage.commands) ∧
    ∀ (g : Gait) (loop : List Spot) (place idle still : Nat) (budget : UInt32) (cue : Cue),
      (g.circle loop place idle still budget cue).Within budget ∧
        (budget ≤ cue.beats →
          Affords cue.beats (g.circle loop place idle still budget cue).passage.commands) := by
  refine ⟨?_, ?_, ?_⟩
  · intro dot cs scene cue p h
    have hc : Course cue p.commands p.cue := Continuity.performAll_from h
    refine ⟨hc.totalBeats_add, hc.foldl_after, hc.affords, toNat_sum hc.exactSum_lt, ?_⟩
    intro sheet k hk
    have hlt : (0 : UInt32).toNat + exactSum (p.commands.map Command.duration) < 2 ^ 32 := by
      simpa using hc.exactSum_lt
    rw [Segment.ends, toNat_endsFrom hlt (by simpa using hk), ← List.map_take, UInt32.toNat_zero,
      Nat.zero_add, totalBeats]
  · intro g spots budget cue
    exact ⟨g.walk_within spots budget cue, (g.walk_from spots budget cue).affords⟩
  · intro g loop place idle still budget cue
    exact ⟨g.circle_within loop place idle still budget cue,
      fun h => (g.circle_from loop place idle still h).1.affords⟩

def counterMarchThenFountain : List Continuity :=
  let order : LineUp := [⟨"A"⟩, ⟨"B"⟩]
  [.twoStep plainTag order true [.figure plainTag (.counterMarch order (some 6))],
    .figure plainTag (.fountain .eastWestFirst .markTime)]

theorem beats_conserved_on_sixteen :
    ∃ p, Continuity.performAll ⟨"B"⟩ counterMarchThenFountain pairScene ⟨⟨0, 4⟩, 16⟩ = .ok p ∧
      p.commands.map Command.duration = [2, 4, 2, 2, 4, 2] ∧
      totalBeats p.commands + p.cue.beats.toNat = 16 := by
  have hrun : (Continuity.performAll ⟨"B"⟩ counterMarchThenFountain pairScene
      ⟨⟨0, 4⟩, 16⟩).toOption.any
        (fun p => p.commands.map Command.duration = [2, 4, 2, 2, 4, 2]) = true := by
    decide +kernel
  obtain ⟨p, hp, hdurations⟩ := exists_ok_of_any hrun
  exact ⟨p, hp, of_decide_eq_true hdurations, (beats_conserved.1 _ _ _ _ _ hp).1⟩

end MarchingDrill
