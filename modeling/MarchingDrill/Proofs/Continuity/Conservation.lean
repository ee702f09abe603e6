import MarchingDrill.Proofs.Continuity.Course
import MarchingDrill.Proofs.Numeric.Sum

/-! Beats are conserved: what continuities spend and what they leave make up what they were given.
No command is ever longer than the beats that are left for it, on the sheet or in the budget of a
route, so that no difference is cut off at zero and no sum runs over. -/

namespace MarchingDrill

def totalBeats (cs : List Command) : Nat := exactSum (cs.map Command.duration)

def leftBehind : (budget : UInt32) → List Command → UInt32
  | budget, [] => budget
  | budget, c :: cs => leftBehind (less budget c.duration) cs

/-- Every command takes at most the beats that those before it leave of a budget. -/
def Affords : (budget : UInt32) → List Command → Prop
  | _, [] => True
  | budget, c :: cs => c.duration ≤ budget ∧ Affords (less budget c.duration) cs

theorem Affords.totalBeats_add {budget : UInt32} {cs : List Command} (h : Affords budget cs) :
    totalBeats cs + (leftBehind budget cs).toNat = budget.toNat := by
  induction cs generalizing budget with
  | nil => exact Nat.zero_add _
  | cons c cs ih =>
    have hle : c.duration.toNat ≤ budget.toNat := UInt32.le_iff_toNat_le.mp h.1
    have hrest := ih h.2
    have hsub : (less budget c.duration).toNat = budget.toNat - c.duration.toNat := by
      rw [less_of_le h.1, UInt32.toNat_sub_of_le _ _ h.1]
    rw [totalBeats, List.map_cons, exactSum_cons, leftBehind]
    rw [hsub, totalBeats] at hrest
    omega

theorem Affords.totalBeats_le {budget : UInt32} {cs : List Command} (h : Affords budget cs) :
    totalBeats cs ≤ budget.toNat := by
  have := h.totalBeats_add
  omega

namespace Course

variable {cue last : Cue} {cs : List Command}

theorem affords (h : Course cue cs last) : Affords cue.beats cs := by
  induction h with
  | rest => trivial
  | next _ fits _ ih => exact ⟨fits, ih⟩

theorem foldl_after (h : Course cue cs last) : cs.foldl Cue.after cue = last := by
  induction h with
  | rest => rfl
  | next _ _ _ ih => exact ih

theorem leftBehind_eq (h : Course cue cs last) : leftBehind cue.beats cs = last.beats := by
  induction h with
  | rest => rfl
  | next _ _ _ ih => exact ih

theorem totalBeats_add (h : Course cue cs last) :
    totalBeats cs + last.beats.toNat = cue.beats.toNat := by
  rw [← h.leftBehind_eq]
  exact h.affords.totalBeats_add

theorem exactSum_lt (h : Course cue cs last) : exactSum (cs.map Command.duration) < 2 ^ 32 :=
  Nat.lt_of_le_of_lt h.affords.totalBeats_le cue.beats.toNat_lt

end Course

def Walk.Within (w : Walk) (budget : UInt32) : Prop :=
  Affords budget w.passage.commands ∧ leftBehind budget w.passage.commands = w.budget

namespace Gait

theorem after_within {w : Walk} {m : Move} {budget : UInt32} (hle : m.duration ≤ budget)
    (h : w.Within (less budget m.duration)) : (w.after m).Within budget :=
  ⟨⟨hle, h.1⟩, h.2⟩

theorem walk_within (g : Gait) (spots : List Spot) (budget : UInt32) (cue : Cue) :
    (g.walk spots budget cue).Within budget := by
  induction spots generalizing budget cue with
  | nil => exact ⟨trivial, rfl⟩
  | cons s ss ih =>
    rw [walk]
    split
    · exact ⟨trivial, rfl⟩
    · cases hm : g.leg? cue.spot s (min budget cue.beats) with
      | none => exact ih budget cue
      | some m => exact after_within (Std.le_trans (leg?_duration_le hm) Std.min_le_left) (ih _ _)

theorem circle_within (g : Gait) (loop : List Spot) (place idle still : Nat) (budget : UInt32)
    (cue : Cue) : (g.circle loop place idle still budget cue).Within budget := by
  fun_induction circle g loop place idle still budget cue with
  | case1 place idle still budget cue _ target hm ih => exact ih
  | case2 place idle still budget cue _ target m hm ih =>
    have hle : m.duration ≤ budget := leg?_duration_le hm
    refine after_within hle ?_
    rw [less_of_le hle]
    exact ih
  | case3 => exact ⟨trivial, rfl⟩

end Gait

end MarchingDrill
