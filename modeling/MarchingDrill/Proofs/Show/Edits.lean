import MarchingDrill.Proofs.Continuity.Course
import MarchingDrill.Show.Editing

/-! Edits: a change that is made on one sheet leaves the other sheets and the numbers of all sheets
as they are. -/

namespace MarchingDrill

inductive Continuity.Reordered (f : LineUp → LineUp) : Continuity → Continuity → Prop
  | counterMarch (tag : Tag) (order : LineUp) (duration : Option UInt32) :
      Reordered f (.figure tag (.counterMarch order duration))
        (.figure tag (.counterMarch (f order) duration))
  | followLeader (tag : Tag) (order : LineUp) (path : List Spot) :
      Reordered f (.figure tag (.followLeader order path))
        (.figure tag (.followLeader (f order) path))
  | twoStep (tag : Tag) (order : LineUp) (markTime : Bool) (parts : List Continuity) :
      Reordered f (.twoStep tag order markTime parts) (.twoStep tag (f order) markTime parts)

theorem Continuity.reordered_of_editOrder? {f : LineUp → LineUp} {c c' : Continuity}
    (h : c.editOrder? f = some c') : c.Reordered f c' := by
  cases c with
  | figure tag g =>
    cases g with
    | counterMarch order duration =>
      cases h
      exact .counterMarch tag order duration
    | followLeader order path =>
      cases h
      exact .followLeader tag order path
    | _ => cases h
  | twoStep tag order markTime parts =>
    cases h
    exact .twoStep tag order markTime parts

theorem OrderedMap.mem_putEntry {κ α : Type} [DecidableEq κ] {k : κ} {f : Option α → α}
    {es : List (κ × α)} {e : κ × α} (h : e ∈ putEntry k f es) :
    e ∈ es ∨ e = (k, f (es.lookup k)) := by
  induction es with
  | nil => exact .inr (List.mem_singleton.mp h)
  | cons a es ih =>
    rw [putEntry] at h
    rw [List.lookup_cons]
    split at h
    · next hk =>
      rcases List.mem_cons.mp h with rfl | hmem
      · exact .inr (by simp [hk])
      · exact .inl (List.mem_cons_of_mem _ hmem)
    · next hk =>
      rcases List.mem_cons.mp h with rfl | hmem
      · exact .inl List.mem_cons_self
      · rw [beq_eq_false_iff_ne.mpr (Ne.symm hk)]
        exact (ih hmem).imp_left (List.mem_cons_of_mem _)

theorem changeSheet_eq_ok {id : SheetId} {f : Sheet → Except ShowFault Sheet}
    {ts us : List Sheet} (h : changeSheet id f ts = .ok us) :
    ∃ before t after u, ts = before ++ t :: after ∧ us = before ++ u :: after ∧
      (∀ b ∈ before, b.id ≠ id) ∧ t.id = id ∧ f t = .ok u := by
  induction ts generalizing us with
  | nil => cases h
  | cons t ts ih =>
    rw [changeSheet] at h
    split at h
    · next hid =>
      obtain ⟨u, hu, hus⟩ := exists_of_bind_eq_ok h
      cases hus
      exact ⟨[], t, ts, u, rfl, rfl, nofun, hid, hu⟩
    · next hid =>
      obtain ⟨rest, hrest, hus⟩ := exists_of_bind_eq_ok h
      cases hus
      obtain ⟨before, v, after, u, rfl, rfl, hbefore, hv, hu⟩ := ih hrest
      exact ⟨t :: before, v, after, u, rfl, rfl, List.forall_mem_cons.mpr ⟨hid, hbefore⟩, hv, hu⟩

namespace Sheet

variable {t : Sheet} {ref : ContinuityRef} {c c' : Continuity}

theorem mem_of_mem_list {symbol : Symbol} (h : c ∈ t.list symbol) :
    ∃ e ∈ t.continuities.entries, e.1 = symbol ∧ c ∈ e.2 := by
  rw [list, OrderedMap.get?] at h
  cases hlookup : t.continuities.entries.lookup symbol with
  | none =>
    rw [hlookup] at h
    cases h
  | some cs =>
    rw [hlookup] at h
    obtain ⟨before, after, hentries, -⟩ := List.lookup_eq_some_iff.mp hlookup
    refine ⟨(symbol, cs), ?_, rfl, h⟩
    rw [hentries]
    exact List.mem_append_right _ List.mem_cons_self

theorem mem_list_of_continuityAt (h : t.continuityAt ref = .ok c) : c ∈ t.list ref.symbol := by
  rw [continuityAt] at h
  split at h
  · next hget =>
    cases h
    exact List.mem_of_getElem? hget
  · cases h

theorem forall_setContinuity {P : Symbol → Continuity → Prop}
    (hall : ∀ e ∈ t.continuities.entries, ∀ d ∈ e.2, P e.1 d)
    (hat : t.continuityAt ref = .ok c) (hkeep : ∀ symbol, P symbol c → P symbol c') :
    ∀ e ∈ (t.setContinuity ref c').continuities.entries, ∀ d ∈ e.2, P e.1 d := by
  intro e he d hd
  rcases OrderedMap.mem_putEntry he with hold | rfl
  · exact hall e hold d hd
  · rcases List.mem_or_eq_of_mem_set hd with hold | rfl
    · obtain ⟨e, he, hsymbol, hmem⟩ := mem_of_mem_list hold
      exact hsymbol ▸ hall e he d hmem
    · obtain ⟨e, he, hsymbol, hmem⟩ := mem_of_mem_list (mem_list_of_continuityAt hat)
      exact hkeep _ (hsymbol ▸ hall e he c hmem)

end Sheet

namespace Show

variable {s s' : Show}

theorem sheetIds_onSheet {id : SheetId} {f : Sheet → Except ShowFault Sheet}
    (hkeep : ∀ t u, f t = .ok u → u.id = t.id) (h : s.onSheet id f = .ok s') :
    s'.sheetIds = s.sheetIds := by
  obtain ⟨sheets, hsheets, hs⟩ := exists_of_bind_eq_ok h
  cases hs
  obtain ⟨before, t, after, u, hold, rfl, -, -, hu⟩ := changeSheet_eq_ok hsheets
  rw [sheetIds, sheetIds, hold]
  simp only [List.map_append, List.map_cons, hkeep t u hu]

theorem sheetIds_editContinuity {id : SheetId} {ref : ContinuityRef}
    {f : Continuity → Except ShowFault Continuity} (h : s.editContinuity id ref f = .ok s') :
    s'.sheetIds = s.sheetIds := by
  refine sheetIds_onSheet ?_ h
  intro t u hu
  obtain ⟨c, -, hu⟩ := exists_of_bind_eq_ok hu
  obtain ⟨c', -, hu⟩ := exists_of_bind_eq_ok hu
  cases hu
  rfl

theorem editOrder_eq_ok {edit : OrderEdit} {active : SheetId} {f : LineUp → LineUp}
    (h : s.editOrder edit active f = .ok s') :
    ∃ before t after c c', edit.sheet = active ∧ s.sheets = before ++ t :: after ∧
      s' = { s with sheets := before ++ t.setContinuity edit.value c' :: after } ∧
      t.id = edit.sheet ∧ t.continuityAt edit.value = .ok c ∧ c.Reordered f c' := by
  rw [editOrder] at h
  split at h
  · cases h
  · next ref hget =>
    have hactive : edit.sheet = active ∧ edit.value = ref := by
      rw [Handle.get?, Handle.isActive] at hget
      split at hget
      · next heq => exact ⟨(of_decide_eq_true heq).symm, Option.some.inj hget⟩
      · cases hget
    obtain ⟨hsheet, rfl⟩ := hactive
    obtain ⟨sheets, hsheets, hs⟩ := exists_of_bind_eq_ok h
    cases hs
    obtain ⟨before, t, after, u, hold, rfl, -, hid, hu⟩ := changeSheet_eq_ok hsheets
    obtain ⟨c, hc, hu⟩ := exists_of_bind_eq_ok hu
    obtain ⟨c', hc', hu⟩ := exists_of_bind_eq_ok hu
    cases hu
    refine ⟨before, t, after, c, c', hsheet, hold, rfl, hid, hc, ?_⟩
    dsimp only at hc'
    split at hc'
    · next hedit =>
      cases hc'
      exact Continuity.reordered_of_editOrder? hedit
    · cases hc'

theorem sheetIds_editOrder {edit : OrderEdit} {active : SheetId} {f : LineUp → LineUp}
    (h : s.editOrder edit active f = .ok s') : s'.sheetIds = s.sheetIds := by
  rw [editOrder] at h
  split at h
  · cases h
  · exact sheetIds_editContinuity h

end Show

end MarchingDrill
