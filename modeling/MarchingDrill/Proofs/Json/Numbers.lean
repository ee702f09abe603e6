import MarchingDrill.Json.Record
import MarchingDrill.Proofs.Decimal.Restoring

/-! Numbers in documents: floats are read back as they were written, and only finite ones are
read. -/

namespace MarchingDrill.Json

open Decimal

theorem float?_float {x : Float} (hx : x.isFinite) : (float x).float? = some x := by
  obtain ⟨n, hn, hfloat⟩ := float?_ofFloat? .document hx
  rw [float, hn]
  exact hfloat

theorem isFinite_of_float? {v : Json} {x : Float} (h : v.float? = some x) : x.isFinite := by
  cases v with
  | num n => exact Numeral.isFinite_of_float? h
  | _ => cases h

theorem legible_float (x : Float) : (float x).legible := by
  unfold float
  cases h : Layout.document.ofFloat? x with
  | none => rfl
  | some n =>
    obtain ⟨k, hk, hfloat⟩ := float?_ofFloat? .document (isFinite_of_ofFloat? h)
    cases h.symm.trans hk
    exact Option.isSome_iff_exists.mpr ⟨x, hfloat⟩

theorem legible_count {n : Nat} (hn : n < 2 ^ 64) : (count n).legible :=
  Numeral.isSome_float?_ofNat hn

theorem legible_word32 (n : UInt32) : (word32 n).legible :=
  legible_count (n.toNat_lt.trans (by decide))

theorem depth_float (x : Float) : (float x).depth = 0 := by
  rw [float]
  cases Decimal.Layout.document.ofFloat? x <;> rfl

end MarchingDrill.Json
