import Mathlib

/-! Sums of counts. A sum of 32 bits is the sum of the natural numbers as long as that one is a
count of 32 bits. -/

namespace MarchingDrill

/-- The sum of counts, taken without bound. -/
def exactSum (ns : List UInt32) : Nat := (ns.map UInt32.toNat).sum

@[simp]
theorem exactSum_nil : exactSum [] = 0 := rfl

@[simp]
theorem exactSum_cons (n : UInt32) (ns : List UInt32) :
    exactSum (n :: ns) = n.toNat + exactSum ns := by
  simp only [exactSum, List.map_cons, List.sum_cons]

theorem exactSum_append (ms ns : List UInt32) :
    exactSum (ms ++ ns) = exactSum ms + exactSum ns := by
  simp only [exactSum, List.map_append, List.sum_append]

theorem exactSum_take_le (ns : List UInt32) (k : Nat) : exactSum (ns.take k) ≤ exactSum ns := by
  have h : exactSum (ns.take k) + exactSum (ns.drop k) = exactSum ns := by
    rw [← exactSum_append, List.take_append_drop]
  omega

theorem exactSum_take_mono (ns : List UInt32) {j k : Nat} (h : j ≤ k) :
    exactSum (ns.take j) ≤ exactSum (ns.take k) := by
  have hle := exactSum_take_le (ns.take k) j
  rwa [List.take_take, Nat.min_eq_left h] at hle

theorem toNat_add_of_lt {m n : UInt32} (h : m.toNat + n.toNat < 2 ^ 32) :
    (m + n).toNat = m.toNat + n.toNat := by
  rw [UInt32.toNat_add, Nat.mod_eq_of_lt h]

theorem toNat_sum {ns : List UInt32} (h : exactSum ns < 2 ^ 32) : ns.sum.toNat = exactSum ns := by
  induction ns with
  | nil => rfl
  | cons n ns ih =>
    rw [exactSum_cons] at h ⊢
    have hrest : ns.sum.toNat = exactSum ns := ih (by omega)
    rw [List.sum_cons, toNat_add_of_lt (by omega), hrest]

end MarchingDrill
