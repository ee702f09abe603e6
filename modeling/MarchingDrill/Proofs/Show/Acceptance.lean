import MarchingDrill.Proofs.Continuity.Course
import MarchingDrill.Show.Document

/-! Accepted shows. No dot and no sheet occurs twice in a show that has been read, so that every
lookup by a number finds the sheet that bears it. -/

namespace MarchingDrill

theorem find?_key_of_mem {α κ : Type} [DecidableEq κ] (key : α → κ) {as : List α}
    (h : (as.map key).Nodup) {a : α} (ha : a ∈ as) :
    as.find? (fun b => key b = key a) = some a := by
  have hsome : (as.find? fun b => key b = key a).isSome := by
    rw [List.find?_isSome]
    exact ⟨a, ha, by simp⟩
  obtain ⟨b, hb⟩ := Option.isSome_iff_exists.mp hsome
  have hkey : key b = key a := by simpa using List.find?_some hb
  rw [hb, List.inj_on_of_nodup_map h (List.mem_of_find?_eq_some hb) ha hkey]

theorem firstRepeat?_eq_none_iff {α : Type} [DecidableEq α] (seen as : List α) :
    firstRepeat? seen as = none ↔ as.Nodup ∧ ∀ a ∈ as, a ∉ seen := by
  induction as generalizing seen with
  | nil => simp [firstRepeat?]
  | cons a as ih =>
    rw [firstRepeat?]
    by_cases ha : a ∈ seen
    · rw [if_pos ha]
      refine iff_of_false (by simp) ?_
      rintro ⟨-, h⟩
      exact h a List.mem_cons_self ha
    · rw [if_neg ha, ih, List.nodup_cons, List.forall_mem_cons]
      constructor
      · rintro ⟨hnodup, h⟩
        refine ⟨⟨fun hmem => h a hmem List.mem_cons_self, hnodup⟩, ha, ?_⟩
        intro b hb hseen
        exact h b hb (List.mem_cons_of_mem a hseen)
      · rintro ⟨⟨hnot, hnodup⟩, -, h⟩
        refine ⟨hnodup, ?_⟩
        intro b hb hmem
        rcases List.mem_cons.mp hmem with rfl | hseen
        · exact hnot hb
        · exact h b hb hseen

theorem firstRepeat?_of_sheetsFault? {known : List DotId} {seen : List SheetId}
    {sheets : List Sheet} (h : sheetsFault? known seen sheets = none) :
    firstRepeat? seen (sheets.map Sheet.id) = none := by
  induction sheets generalizing seen with
  | nil => rfl
  | cons t ts ih =>
    rw [sheetsFault?] at h
    rw [List.map_cons, firstRepeat?]
    split at h
    · cases h
    · next hseen =>
      rw [if_neg hseen]
      exact ih (Option.or_eq_none_iff.mp h).2

namespace Show

variable {s : Show}

theorem fault?_of_validate (h : s.validate = .ok ()) : s.fault? = none := by
  unfold validate at h
  split at h
  · cases h
  · assumption

theorem dotIds_nodup (h : s.validate = .ok ()) : s.dotIds.Nodup := by
  have hf := fault?_of_validate h
  simp only [fault?, Option.or_eq_none_iff, Option.map_eq_none_iff] at hf
  exact ((firstRepeat?_eq_none_iff [] s.dotIds).mp hf.2.1).1

theorem sheetIds_nodup (h : s.validate = .ok ()) : s.sheetIds.Nodup := by
  have hf := fault?_of_validate h
  simp only [fault?, Option.or_eq_none_iff, Option.map_eq_none_iff] at hf
  exact ((firstRepeat?_eq_none_iff [] s.sheetIds).mp (firstRepeat?_of_sheetsFault? hf.2.2)).1

theorem getElem?_sheetIds {i : Nat} {t : Sheet} (h : s.sheets[i]? = some t) :
    s.sheetIds[i]? = some t.id := by
  rw [sheetIds, List.getElem?_map, h, Option.map_some]

theorem validate_of_ofText {names : Names} {doc : String} (h : ofText names doc = .ok s) :
    s.validate = .ok () := by
  unfold ofText at h
  split at h
  · cases h
  · obtain ⟨u, hvalid, hs⟩ := exists_of_bind_eq_ok h
    cases hs
    exact hvalid

section Lookup

variable (hnodup : s.sheetIds.Nodup) {t : Sheet} (ht : t ∈ s.sheets)
include hnodup ht

theorem sheet?_of_mem : s.sheet? t.id = some t := find?_key_of_mem Sheet.id hnodup ht

theorem sheetBeats_of_mem : s.sheetBeats t.id = t.beats := by
  rw [sheetBeats, sheet?_of_mem hnodup ht, Option.elim_some]

theorem spot?_of_mem (dot : DotId) : s.spot? t.id dot = t.spot? dot := by
  rw [spot?, sheet?_of_mem hnodup ht, Option.bind_some]

theorem symbol?_of_mem (dot : DotId) :
    s.symbol? t.id dot = (t.positions.get? dot).map Placement.symbol := by
  rw [symbol?, sheet?_of_mem hnodup ht, Option.bind_some]

theorem listFor_of_mem (dot : DotId) :
    s.listFor t.id dot = (t.positions.get? dot).elim [] fun p => t.list p.symbol := by
  have hlist : s.list t.id = t.list := by
    funext symbol
    rw [list, sheet?_of_mem hnodup ht, Option.elim_some]
  rw [listFor, symbol?_of_mem hnodup ht, hlist, Option.elim_map]
  rfl

end Lookup

theorem nextSheet?_of_getElem? (hnodup : s.sheetIds.Nodup) {i : Nat} {t : Sheet}
    (ht : s.sheets[i]? = some t) : s.nextSheet? t.id = s.sheets[i + 1]? := by
  obtain ⟨hi, hget⟩ := List.getElem?_eq_some_iff.mp ht
  have hplace : s.sheets.findIdx (fun u => !(u.id != t.id)) = i := by
    rw [List.findIdx_eq hi]
    refine ⟨by simp [hget], ?_⟩
    intro j hj
    have hne : s.sheets[j].id ≠ t.id := by
      intro heq
      have hids : s.sheetIds[j]? = s.sheetIds[i]? := by
        rw [getElem?_sheetIds ht, getElem?_sheetIds (List.getElem?_eq_getElem (hj.trans hi)), heq]
      have hlt : j < s.sheetIds.length := by
        rw [sheetIds, List.length_map]
        exact hj.trans hi
      exact hj.ne ((List.getElem?_inj hlt hnodup).mp hids)
    simpa using hne
  rw [nextSheet?, List.dropWhile_eq_drop_findIdx_not, hplace, List.getElem?_drop]

theorem nextSpot?_of_getElem? (hnodup : s.sheetIds.Nodup) {i : Nat} {t : Sheet}
    (ht : s.sheets[i]? = some t) (dot : DotId) :
    s.nextSpot? t.id dot = s.sheets[i + 1]?.bind (·.spot? dot) := by
  rw [nextSpot?, nextSheet?_of_getElem? hnodup ht]
  cases hu : s.sheets[i + 1]? with
  | none => rfl
  | some u =>
    rw [Option.bind_some, Option.bind_some, spot?_of_mem hnodup (List.mem_of_getElem? hu)]

theorem map_sheetBeats (hnodup : s.sheetIds.Nodup) :
    s.sheetIds.map s.sheetBeats = s.sheets.map Sheet.beats := by
  rw [sheetIds, List.map_map]
  apply List.map_congr_left
  intro t ht
  exact sheetBeats_of_mem hnodup ht

end Show

end MarchingDrill
