import MarchingDrill.Proofs.Show.InPlace

/-! Reordering: an edit of an order is refused for one of four reasons, or it changes the order that
it points at and nothing else. It can be undone, since a part that is put back is found again and
what is put last is what counts. -/

namespace MarchingDrill

namespace OrderedMap

variable {κ α : Type} [DecidableEq κ] {k : κ}

theorem putEntry_append {es : List (κ × α)} (hnew : k ∉ es.map Prod.fst) (f : Option α → α) (a : α)
    (fs : List (κ × α)) : putEntry k f (es ++ (k, a) :: fs) = es ++ (k, f (some a)) :: fs := by
  induction es with
  | nil => exact if_pos rfl
  | cons e es ih =>
    rw [List.map_cons, List.mem_cons, not_or] at hnew
    rw [List.cons_append, putEntry, if_neg (Ne.symm hnew.1), ih hnew.2, List.cons_append]

theorem lookup_putEntry (k : κ) (f : Option α → α) (es : List (κ × α)) :
    (putEntry k f es).lookup k = some (f (es.lookup k)) := by
  induction es with
  | nil => exact List.lookup_cons_self
  | cons e es ih =>
    rw [putEntry, List.lookup_cons]
    split
    · next hk => rw [List.lookup_cons_self, beq_iff_eq.mpr hk.symm]
    · next hk =>
      have hne : (k == e.1) = false := beq_false_of_ne (Ne.symm hk)
      rw [List.lookup_cons, hne, ih]

theorem putEntry_putEntry (k : κ) (f g : Option α → α) (es : List (κ × α)) :
    putEntry k g (putEntry k f es) = putEntry k (fun o => g (some (f o))) es := by
  induction es with
  | nil => exact if_pos rfl
  | cons e es ih =>
    rw [putEntry, putEntry]
    split
    · exact if_pos rfl
    · next hk => rw [putEntry, if_neg hk, ih]

theorem get?_alter (m : OrderedMap κ α) (k : κ) (f : Option α → α) :
    (m.alter k f).get? k = some (f (m.get? k)) := lookup_putEntry k f m.entries

theorem alter_alter (m : OrderedMap κ α) (k : κ) (f g : Option α → α) :
    (m.alter k f).alter k g = m.alter k fun o => g (some (f o)) :=
  ext (putEntry_putEntry k f g m.entries)

end OrderedMap

namespace Sheet

variable {t : Sheet} {ref : ContinuityRef} {c c' : Continuity}

theorem continuityAt_eq_ok_iff : t.continuityAt ref = .ok c ↔
    ∃ list, t.continuities.get? ref.symbol = some list ∧ list[ref.index]? = some c := by
  have hlist : t.continuityAt ref = .ok c ↔ (t.list ref.symbol)[ref.index]? = some c := by
    rw [continuityAt]
    cases (t.list ref.symbol)[ref.index]? with
    | none => exact iff_of_false (fun h => by cases h) (fun h => by cases h)
    | some d => rw [Except.ok.injEq, Option.some.injEq]
  rw [hlist, list]
  cases t.continuities.get? ref.symbol <;> simp

theorem continuityAt_eq_error_iff {fault : ShowFault} : t.continuityAt ref = .error fault ↔
    fault = .noSuchContinuity t.id ref ∧
      ∀ list, t.continuities.get? ref.symbol = some list → list.length ≤ ref.index := by
  have hnone : (t.list ref.symbol)[ref.index]? = none ↔
      ∀ list, t.continuities.get? ref.symbol = some list → list.length ≤ ref.index := by
    rw [list]
    cases t.continuities.get? ref.symbol <;> simp
  rw [continuityAt, ← hnone]
  cases (t.list ref.symbol)[ref.index]? with
  | none => simp [eq_comm]
  | some d => simp

theorem continuityAt_setContinuity (h : t.continuityAt ref = .ok c) (c' : Continuity) :
    (t.setContinuity ref c').continuityAt ref = .ok c' := by
  obtain ⟨list, hlist, hget⟩ := continuityAt_eq_ok_iff.mp h
  have hlt := (List.getElem?_eq_some_iff.mp hget).1
  refine continuityAt_eq_ok_iff.mpr ⟨list.set ref.index c', ?_, List.getElem?_set_self hlt⟩
  rw [setContinuity, editList, OrderedMap.get?_alter, hlist, Option.getD_some]

theorem setContinuity_setContinuity (t : Sheet) (ref : ContinuityRef) (c c' : Continuity) :
    (t.setContinuity ref c).setContinuity ref c' = t.setContinuity ref c' := by
  simp only [setContinuity, editList, OrderedMap.alter_alter, Option.getD_some, List.set_set]

end Sheet

namespace Show

variable {s : Show} {id : SheetId} {t u : Sheet}

theorem exists_append_of_sheet? (h : s.sheet? id = some t) : t.id = id ∧ ∃ front back,
    s.sheets = front ++ t :: back ∧ ∀ v ∈ front, v.id ≠ id := by
  obtain ⟨hid, front, back, hsheets, hfront⟩ := List.find?_eq_some_iff_append.mp h
  refine ⟨of_decide_eq_true hid, front, back, hsheets, fun v hv => ?_⟩
  simpa using hfront v hv

theorem setSheet_of_append {front back : List Sheet} (h : s.sheets = front ++ t :: back)
    (hid : t.id = id) (hnew : ∀ v ∈ front, v.id ≠ id) (u : Sheet) :
    s.setSheet id u = { s with sheets := front ++ u :: back } := by
  have hfront : front.findIdx (·.id = id) = front.length :=
    List.findIdx_eq_length.mpr fun v hv => decide_eq_false (hnew v hv)
  have hplace : s.sheets.findIdx (·.id = id) = front.length := by
    rw [h, List.findIdx_append, hfront, if_neg (Nat.lt_irrefl _), List.findIdx_cons,
      decide_eq_true hid, cond_true, Nat.zero_add]
  rw [setSheet, hplace, h, List.set_append_right _ _ (Nat.le_refl _), Nat.sub_self,
    List.set_cons_zero]

theorem sheet?_setSheet (h : s.sheet? id = some t) (hid : u.id = id) :
    (s.setSheet id u).sheet? id = some u := by
  obtain ⟨ht, front, back, hsheets, hfront⟩ := exists_append_of_sheet? h
  rw [setSheet_of_append hsheets ht hfront, sheet?]
  refine List.find?_eq_some_iff_append.mpr ⟨decide_eq_true hid, front, back, rfl, fun v hv => ?_⟩
  simpa using hfront v hv

theorem setSheet_setSheet (h : s.sheet? id = some t) (hid : u.id = id) (v : Sheet) :
    (s.setSheet id u).setSheet id v = s.setSheet id v := by
  obtain ⟨ht, front, back, hsheets, hfront⟩ := exists_append_of_sheet? h
  rw [setSheet_of_append hsheets ht hfront, setSheet_of_append hsheets ht hfront,
    setSheet_of_append rfl hid hfront]

end Show

namespace Continuity

variable {c c' : Continuity} {f g : LineUp → LineUp}

def orderedLabels : List String := ["cm", "ftl", "two"]

theorem exists_editOrder?_iff (c : Continuity) (f : LineUp → LineUp) :
    (∃ c', c.editOrder? f = some c') ↔ c.label ∈ orderedLabels := by
  cases c with
  | twoStep => exact iff_of_true ⟨_, rfl⟩ (by simp [label, orderedLabels])
  | figure tag g =>
    cases g with
    | counterMarch | followLeader =>
      exact iff_of_true ⟨_, rfl⟩ (by simp [label, Figure.label, orderedLabels])
    | stop markTime =>
      refine iff_of_false ?_ ?_
      · rintro ⟨_, ⟨⟩⟩
      · cases markTime <;> simp [label, Figure.label, orderedLabels]
    | fountain along | diagonal along =>
      refine iff_of_false ?_ ?_
      · rintro ⟨_, ⟨⟩⟩
      · cases along <;>
          simp [label, Figure.label, GridOrder.label, DiagonalOrder.label, orderedLabels]
    | _ =>
      refine iff_of_false ?_ ?_
      · rintro ⟨_, ⟨⟩⟩
      · simp [label, Figure.label, orderedLabels]

theorem Reordered.undone (hinv : ∀ order, g (f order) = order) (h : c.Reordered f c') :
    c'.editOrder? g = some c := by
  cases h with
  | counterMarch tag order duration =>
    exact congrArg (fun o => some (figure tag (.counterMarch o duration))) (hinv order)
  | followLeader tag order path =>
    exact congrArg (fun o => some (figure tag (.followLeader o path))) (hinv order)
  | twoStep tag order markTime parts =>
    exact congrArg (fun o => some (Continuity.twoStep tag o markTime parts)) (hinv order)

end Continuity

namespace Show

/-- Why an edit of an order is refused, whatever it would do to the order: the first of four reasons
that there is. -/
inductive Refuses (s : Show) (edit : OrderEdit) (active : SheetId) : ShowFault → Prop
  | expired (stale : edit.sheet ≠ active) :
      Refuses s edit active (.editExpired edit.sheet active)
  | unknownSheet (current : edit.sheet = active) (unknown : edit.sheet ∉ s.sheetIds) :
      Refuses s edit active (.unknownSheet edit.sheet)
  | noSuchContinuity (current : edit.sheet = active) {t : Sheet} (known : t ∈ s.sheets)
      (id : t.id = edit.sheet) (short : ∀ list,
        t.continuities.get? edit.value.symbol = some list → list.length ≤ edit.value.index) :
      Refuses s edit active (.noSuchContinuity edit.sheet edit.value)
  | notOrdered (current : edit.sheet = active) {t : Sheet} (known : t ∈ s.sheets)
      (id : t.id = edit.sheet) {list : List Continuity} {c : Continuity}
      (filed : t.continuities.get? edit.value.symbol = some list)
      (found : list[edit.value.index]? = some c) (plain : c.label ∉ Continuity.orderedLabels) :
      Refuses s edit active (.notOrdered edit.sheet c.label)

section Refused

variable {s : Show} {edit : OrderEdit} {active : SheetId} {t : Sheet} {c : Continuity}

theorem editOrder_of_expired (h : edit.sheet ≠ active) (f : LineUp → LineUp) :
    s.editOrder edit active f = .error (.editExpired edit.sheet active) := by
  have hget : edit.get? active = none := if_neg fun hactive => h (of_decide_eq_true hactive).symm
  rw [editOrder, hget]

section Current

variable (h : edit.sheet = active) (f : LineUp → LineUp)
include h

theorem editOrder_of_unknown (hsheet : s.sheet? edit.sheet = none) :
    s.editOrder edit active f = .error (.unknownSheet edit.sheet) := by
  have hget : edit.get? active = some edit.value := if_pos (decide_eq_true h.symm)
  have hat : s.sheetAt edit.sheet = .error (.unknownSheet edit.sheet) := by
    rw [sheetAt, hsheet]
  rw [editOrder, hget]
  dsimp only
  rw [editContinuity, onSheet_eq, hat]
  rfl

theorem editOrder_of_sheet? (hsheet : s.sheet? edit.sheet = some t) :
    s.editOrder edit active f = match t.continuityAt edit.value with
      | .error fault => .error fault
      | .ok c => match c.editOrder? f with
        | some c' => .ok (s.setSheet edit.sheet (t.setContinuity edit.value c'))
        | none => .error (.notOrdered edit.sheet c.label) := by
  have hget : edit.get? active = some edit.value := if_pos (decide_eq_true h.symm)
  rw [editOrder, hget]
  dsimp only
  rw [editContinuity, onSheet_eq, sheetAt_eq_ok_iff.mpr hsheet]
  cases hc : t.continuityAt edit.value with
  | error fault => simp [bind, Except.bind, hc]
  | ok c => cases hedit : c.editOrder? f <;> simp [bind, Except.bind, hc, hedit, pure, Except.pure]

end Current

theorem sheet?_eq_none_iff {id : SheetId} : s.sheet? id = none ↔ id ∉ s.sheetIds := by
  simp only [sheet?, sheetIds, List.find?_eq_none, decide_eq_true_eq, List.mem_map, not_exists,
    not_and]

theorem Refuses.editOrder_eq (hnodup : s.sheetIds.Nodup) {fault : ShowFault}
    (h : s.Refuses edit active fault) (f : LineUp → LineUp) :
    s.editOrder edit active f = .error fault := by
  cases h with
  | expired stale => exact editOrder_of_expired stale f
  | unknownSheet current unknown =>
    exact editOrder_of_unknown current f (sheet?_eq_none_iff.mpr unknown)
  | @noSuchContinuity current t known id short =>
    have hsheet : s.sheet? edit.sheet = some t := id ▸ sheet?_of_mem hnodup known
    have hat := Sheet.continuityAt_eq_error_iff.mpr ⟨rfl, short⟩
    rw [editOrder_of_sheet? current f hsheet, hat, id]
  | @notOrdered current t known id list c filed found plain =>
    have hsheet : s.sheet? edit.sheet = some t := id ▸ sheet?_of_mem hnodup known
    have hat := Sheet.continuityAt_eq_ok_iff.mpr ⟨list, filed, found⟩
    have hnone : c.editOrder? f = none := by
      rw [← Option.not_isSome_iff_eq_none, Option.isSome_iff_exists]
      rwa [← c.exists_editOrder?_iff f] at plain
    rw [editOrder_of_sheet? current f hsheet, hat]
    simp only [hnone]

theorem refuses_or_found (s : Show) (edit : OrderEdit) (active : SheetId) :
    (∃ fault, s.Refuses edit active fault) ∨ ∃ t c, edit.sheet = active ∧
      s.sheet? edit.sheet = some t ∧ t.continuityAt edit.value = .ok c ∧
      ∀ f, ∃ c', c.editOrder? f = some c' ∧
        s.editOrder edit active f =
          .ok (s.setSheet edit.sheet (t.setContinuity edit.value c')) := by
  by_cases hactive : edit.sheet = active
  · cases hsheet : s.sheet? edit.sheet with
    | none => exact .inl ⟨_, .unknownSheet hactive (sheet?_eq_none_iff.mp hsheet)⟩
    | some t =>
      have hmem := List.mem_of_find?_eq_some hsheet
      have hid := (exists_append_of_sheet? hsheet).1
      cases hat : t.continuityAt edit.value with
      | error fault =>
        obtain ⟨-, hshort⟩ := Sheet.continuityAt_eq_error_iff.mp hat
        exact .inl ⟨_, .noSuchContinuity hactive hmem hid hshort⟩
      | ok c =>
        by_cases hlabel : c.label ∈ Continuity.orderedLabels
        · refine .inr ⟨t, c, hactive, rfl, hat, fun f => ?_⟩
          obtain ⟨c', hc'⟩ := (c.exists_editOrder?_iff f).mpr hlabel
          refine ⟨c', hc', ?_⟩
          rw [editOrder_of_sheet? hactive f hsheet, hat]
          simp only [hc']
        · obtain ⟨list, hlist, hget⟩ := Sheet.continuityAt_eq_ok_iff.mp hat
          exact .inl ⟨_, .notOrdered hactive hmem hid hlist hget hlabel⟩
  · exact .inl ⟨_, .expired hactive⟩

theorem editOrder_eq_error_iff (hnodup : s.sheetIds.Nodup) (f : LineUp → LineUp)
    {fault : ShowFault} :
    s.editOrder edit active f = .error fault ↔ s.Refuses edit active fault := by
  refine ⟨fun h => ?_, fun h => h.editOrder_eq hnodup f⟩
  rcases s.refuses_or_found edit active with ⟨fault', hrefuses⟩ | ⟨t, c, -, -, -, hfound⟩
  · cases h.symm.trans (hrefuses.editOrder_eq hnodup f)
    exact hrefuses
  · obtain ⟨c', -, hok⟩ := hfound f
    cases h.symm.trans hok

theorem editOrder_undone (hnodup : s.sheetIds.Nodup) {f g : LineUp → LineUp}
    (hinv : ∀ order, g (f order) = order) {s' : Show} (h : s.editOrder edit active f = .ok s') :
    s'.editOrder edit active g = .ok s := by
  rcases s.refuses_or_found edit active with
    ⟨fault, hrefuses⟩ | ⟨t, c, hactive, hsheet, hat, hfound⟩
  · cases h.symm.trans (hrefuses.editOrder_eq hnodup f)
  · obtain ⟨c', hc', hok⟩ := hfound f
    cases h.symm.trans hok
    have hid : (t.setContinuity edit.value c').id = edit.sheet :=
      (exists_append_of_sheet? hsheet).1
    have hback : c'.editOrder? g = some c :=
      (Continuity.reordered_of_editOrder? hc').undone hinv
    rw [editOrder_of_sheet? hactive g (sheet?_setSheet hsheet hid),
      Sheet.continuityAt_setContinuity hat]
    simp only [hback]
    rw [Sheet.setContinuity_setContinuity, Sheet.setContinuity_self hat,
      setSheet_setSheet hsheet hid, setSheet_self hsheet]

end Refused

end Show

/-- Two sheets that differ in one continuity at most, which is `c` on the first one and `c'` on the
second. -/
structure Sheet.DiffersAt (ref : ContinuityRef) (c c' : Continuity) (t u : Sheet) : Prop where
  entries : ∃ es cs ds fs, cs.length = ref.index ∧
    t.continuities.entries = es ++ (ref.symbol, cs ++ c :: ds) :: fs ∧
    u.continuities.entries = es ++ (ref.symbol, cs ++ c' :: ds) :: fs
  rest : u = { t with continuities := u.continuities }

structure Show.DiffersAt (edit : OrderEdit) (c c' : Continuity) (s u : Show) : Prop where
  sheets : ∃ front t v back, s.sheets = front ++ t :: back ∧ u.sheets = front ++ v :: back ∧
    t.id = edit.sheet ∧ t.DiffersAt edit.value c c' v
  rest : u = { s with sheets := u.sheets }

theorem Sheet.differsAt_setContinuity {t : Sheet} {ref : ContinuityRef} {c : Continuity}
    (h : t.continuityAt ref = .ok c) (c' : Continuity) :
    t.DiffersAt ref c c' (t.setContinuity ref c') := by
  obtain ⟨list, hlist, hget⟩ := continuityAt_eq_ok_iff.mp h
  obtain ⟨es, fs, hentries, hnew⟩ := List.lookup_eq_some_iff.mp hlist
  obtain ⟨hlt, rfl⟩ := List.getElem?_eq_some_iff.mp hget
  obtain ⟨cs, ds, hold, hlength, hset⟩ :
      ∃ cs ds, list = cs ++ list[ref.index] :: ds ∧ cs.length = ref.index ∧
        list.set ref.index c' = cs ++ c' :: ds := List.exists_of_set hlt
  have hkeys : ref.symbol ∉ es.map Prod.fst := fun hmem => by
    obtain ⟨e, he, heq⟩ := List.mem_map.mp hmem
    simpa [heq] using hnew e he
  refine ⟨⟨es, cs, ds, fs, hlength, hold ▸ hentries, ?_⟩, rfl⟩
  change OrderedMap.putEntry ref.symbol _ t.continuities.entries = _
  rw [hentries, OrderedMap.putEntry_append hkeys, Option.getD_some]
  exact congrArg (fun list => es ++ (ref.symbol, list) :: fs) hset

namespace Show

variable {s : Show} {edit : OrderEdit} {active : SheetId} {f : LineUp → LineUp} {u : Show}

theorem editOrder_differsAt (h : s.editOrder edit active f = .ok u) :
    ∃ c c', c.Reordered f c' ∧ s.DiffersAt edit c c' u := by
  obtain ⟨front, t, back, c, c', -, hsheets, rfl, hid, hat, hreordered⟩ := editOrder_eq_ok h
  exact ⟨c, c', hreordered,
    ⟨front, t, _, back, hsheets, rfl, hid, Sheet.differsAt_setContinuity hat c'⟩, rfl⟩

end Show

namespace InPlace

variable {σ : Type} {act : InPlace σ Unit} {change : σ → Except ShowFault σ} {whole : σ}

theorem Makes.of_error (h : Makes act change) {f : ShowFault} (hchange : change whole = .error f) :
    act.reply whole = .error f ∧ act.after whole = whole := by
  rw [reply, after, h whole, hchange]
  exact ⟨rfl, rfl⟩

theorem Makes.of_ok (h : Makes act change) {changed : σ} (hchange : change whole = .ok changed) :
    act.reply whole = .ok () ∧ act.after whole = changed := by
  rw [reply, after, h whole, hchange]
  exact ⟨rfl, rfl⟩

end InPlace

end MarchingDrill
