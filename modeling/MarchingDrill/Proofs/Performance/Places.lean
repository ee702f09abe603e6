import MarchingDrill.Proofs.Performance.Ends
import MarchingDrill.Proofs.Performance.Slack

/-! Places: which part is under way at a beat. It starts at the beat or before it, as far as whole
beats go, and there is one as long as the beat is not past them all. -/

namespace MarchingDrill

open Binary64

section Places

variable {ns : List UInt32} {x : Float}

theorem toNat_lastEnd (hfit : exactSum ns < 2 ^ 32) :
    (lastEnd (endsFrom 0 ns)).toNat = exactSum ns := by
  rw [lastEnd_endsFrom, toNat_sum hfit]

theorem toNat_end (hfit : exactSum ns < 2 ^ 32) {k : Nat} (hk : k < ns.length) :
    ∃ e, (endsFrom 0 ns)[k]? = some e ∧ e.toNat = exactSum (ns.take (k + 1)) := by
  have hend := toNat_endsFrom (by simpa using hfit : (0 : UInt32).toNat + exactSum ns < 2 ^ 32) hk
  rw [UInt32.toNat_zero, Nat.zero_add] at hend
  exact Option.map_eq_some_iff.mp hend

theorem toNat_startAt (hfit : exactSum ns < 2 ^ 32) {place : Nat} (hplace : place ≤ ns.length) :
    (startAt (endsFrom 0 ns) place).toNat = exactSum (ns.take place) := by
  cases place with
  | zero => rfl
  | succ place =>
    obtain ⟨e, he, hsum⟩ := toNat_end hfit hplace
    rw [startAt, if_neg (Nat.succ_ne_zero place), Nat.add_sub_cancel,
      List.getD_eq_getElem?_getD, he]
    exact hsum

theorem startAt_append {ms : List UInt32} (ns : List UInt32) {place : Nat}
    (hplace : place ≤ ms.length) :
    startAt (endsFrom 0 (ms ++ ns)) place = startAt (endsFrom 0 ms) place := by
  cases place with
  | zero => rfl
  | succ place =>
    rw [startAt, startAt, if_neg (Nat.succ_ne_zero place), if_neg (Nat.succ_ne_zero place),
      endsFrom_append, Nat.add_sub_cancel, List.getD_append]
    rwa [length_endsFrom]

variable (hx : IsBeat x)
include hx

theorem placeAt_lt (hfit : exactSum ns < 2 ^ 32) (hne : ns ≠ [])
    (hle : value x ≤ (exactSum ns * one : Nat)) : placeAt (endsFrom 0 ns) x < ns.length := by
  have hpos : 0 < ns.length := List.length_pos_iff.mpr hne
  obtain ⟨e, he, hsum⟩ := toNat_end hfit (Nat.sub_one_lt hpos.ne')
  rw [Nat.sub_add_cancel hpos, List.take_length] at hsum
  rw [placeAt, ← length_endsFrom 0 ns, List.findIdx_lt_length]
  refine ⟨e, List.mem_of_getElem? he, ?_⟩
  rw [Bool.not_eq_true']
  refine Bool.eq_false_iff.mpr ?_
  intro hover
  have hlt := hx.lt_of_isOver e hover
  rw [hsum] at hlt
  omega

theorem startAt_lt {place : Nat} (hplace : place ≤ placeAt (endsFrom 0 ns) x) (hne : place ≠ 0) :
    (((startAt (endsFrom 0 ns) place).toNat * one : Nat) : Int) < value x := by
  have hlt : place - 1 < placeAt (endsFrom 0 ns) x := by omega
  have hlen : place - 1 < (endsFrom 0 ns).length := Nat.lt_of_lt_of_le hlt List.findIdx_le_length
  have hover := List.not_of_lt_findIdx hlt
  rw [Bool.not_eq_false'] at hover
  rw [startAt, if_neg hne, List.getD_eq_getElem?_getD, List.getElem?_eq_getElem hlen]
  exact hx.lt_of_isOver _ (by simpa using hover)

theorem startAt_le {place : Nat} (hplace : place ≤ placeAt (endsFrom 0 ns) x) :
    (((startAt (endsFrom 0 ns) place).toNat * one : Nat) : Int) ≤ value x := by
  rcases Nat.eq_zero_or_pos place with rfl | hpos
  · have hzero : ((startAt (endsFrom 0 ns) 0).toNat * one : Nat) = 0 := Nat.zero_mul one
    rw [hzero]
    exact hx.nonneg
  · exact (startAt_lt hx hplace hpos.ne').le

theorem le_end (hfit : exactSum ns < 2 ^ 32) (hplace : placeAt (endsFrom 0 ns) x < ns.length) :
    value x ≤ (exactSum (ns.take (placeAt (endsFrom 0 ns) x + 1)) * one : Nat) +
      2 * slackUnits := by
  obtain ⟨e, he, hsum⟩ := toNat_end hfit hplace
  have hover := List.findIdx_of_getElem?_eq_some he
  rw [Bool.not_eq_true'] at hover
  rw [← hsum]
  exact hx.le_of_not_isOver e hover

end Places

end MarchingDrill
