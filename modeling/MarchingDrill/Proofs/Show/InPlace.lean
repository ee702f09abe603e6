import MarchingDrill.Proofs.Show.Numbering
import MarchingDrill.Proofs.Show.Reloading
import MarchingDrill.Show.InPlace

/-! Editing in place: whatever dots, sheets, spots and lists are added and whatever orders are
reversed, a show stays one that documents hold, and a call that fails leaves it as it was. -/

namespace MarchingDrill

namespace OrderedMap

variable {κ α : Type} [DecidableEq κ] {k : κ} {a : α} {f : Option α → α}

theorem putEntry_eq_self (hf : f (some a) = a) {es : List (κ × α)} (h : es.lookup k = some a) :
    putEntry k f es = es := by
  induction es with
  | nil => cases h
  | cons e es ih =>
    rw [List.lookup_cons] at h
    rw [putEntry]
    split
    · next hk =>
      rw [beq_iff_eq.mpr hk.symm] at h
      obtain rfl : e.2 = a := Option.some.inj h
      rw [hf, ← hk]
    · next hk =>
      rw [beq_false_of_ne (Ne.symm hk)] at h
      rw [ih h]

theorem alter_eq_self {m : OrderedMap κ α} (hf : f (some a) = a) (h : m.get? k = some a) :
    m.alter k f = m := ext (putEntry_eq_self hf h)

end OrderedMap

theorem Sheet.setContinuity_self {t : Sheet} {ref : ContinuityRef} {c : Continuity}
    (h : t.continuityAt ref = .ok c) : t.setContinuity ref c = t := by
  rw [continuityAt] at h
  split at h
  · next hget =>
    cases h
    rw [list] at hget
    cases hlist : t.continuities.get? ref.symbol with
    | none =>
      rw [hlist] at hget
      cases hget
    | some cs =>
      rw [hlist, Option.getD_some] at hget
      obtain ⟨hi, rfl⟩ := List.getElem?_eq_some_iff.mp hget
      rw [setContinuity, editList, OrderedMap.alter_eq_self (List.set_getElem_self hi) hlist]
  · cases h

namespace Show

variable {s : Show} {id : SheetId} {t u : Sheet}

theorem getElem?_of_sheet? (h : s.sheet? id = some t) :
    s.sheets[s.sheets.findIdx (·.id = id)]? = some t := List.find?_eq_getElem?_findIdx.symm.trans h

theorem setSheet_self (h : s.sheet? id = some t) : s.setSheet id t = s := by
  obtain ⟨hi, hget⟩ := List.getElem?_eq_some_iff.mp (getElem?_of_sheet? h)
  rw [setSheet, ← hget, List.set_getElem_self]

theorem sheetIds_setSheet (h : s.sheet? id = some t) (hid : u.id = t.id) :
    (s.setSheet id u).sheetIds = s.sheetIds := by
  have hsame : (s.setSheet id u).sheetIds = (s.setSheet id t).sheetIds := by
    rw [sheetIds, sheetIds, setSheet, setSheet, List.map_set, List.map_set, hid]
  rw [hsame, setSheet_self h]

theorem dot?_isSome_iff {dot : DotId} : (s.dot? dot).isSome ↔ dot ∈ s.dotIds := by
  simp only [dot?, dotIds, List.find?_isSome, decide_eq_true_eq, List.mem_map]

theorem changeSheet_eq (id : SheetId) (f : Sheet → Except ShowFault Sheet) (ts : List Sheet) :
    changeSheet id f ts = match ts.find? (·.id = id) with
      | none => .error (.unknownSheet id)
      | some t => (f t).map (ts.set (ts.findIdx (·.id = id))) := by
  induction ts with
  | nil => rfl
  | cons t ts ih =>
    rw [changeSheet, List.find?_cons, List.findIdx_cons]
    by_cases hid : t.id = id
    · simp only [hid, if_true, decide_true]
      cases f t <;> rfl
    · simp only [hid, if_false, decide_false, ih]
      cases ts.find? (·.id = id) with
      | none => rfl
      | some v =>
        dsimp only
        cases f v <;> rfl

theorem sheetAt_eq_ok_iff : s.sheetAt id = .ok t ↔ s.sheet? id = some t := by
  rw [sheetAt]
  cases s.sheet? id with
  | none => exact iff_of_false nofun nofun
  | some u => rw [Except.ok.injEq, Option.some.injEq]

theorem onSheet_eq (s : Show) (id : SheetId) (f : Sheet → Except ShowFault Sheet) :
    s.onSheet id f = do return s.setSheet id (← f (← s.sheetAt id)) := by
  rw [onSheet, changeSheet_eq, sheetAt, sheet?]
  cases s.sheets.find? (·.id = id) with
  | none => rfl
  | some t =>
    change (Except.map _ (f t) >>= fun sheets => .ok { s with sheets }) = f t >>= _
    cases f t <;> rfl

end Show

namespace InPlace

variable {σ τ α : Type}

theorem run_get_bind (f : σ → InPlace σ α) (whole : σ) :
    ((get : InPlace σ σ) >>= f).run.run whole = (f whole).run.run whole := rfl

theorem run_ofExcept (x : Except ShowFault α) (whole : σ) :
    (ofExcept x : InPlace σ α).run.run whole = (x, whole) := by
  cases x <;> rfl

theorem run_within (part : σ → Except ShowFault τ) (put : τ → σ → σ) (act : InPlace τ α)
    (whole : σ) : (within part put act).run.run whole = match part whole with
      | .error f => (.error f, whole)
      | .ok old => (act.reply old, put (act.after old) whole) := by
  change (ofExcept (part whole) >>= fun old => (do
    set (put (act.after old) whole)
    ofExcept (act.reply old) : InPlace σ α)).run.run whole = _
  cases part whole with
  | error f => rfl
  | ok old => exact run_ofExcept (act.reply old) (put (act.after old) whole)

/-- What is done in place comes to the same as a change that yields something new or a fault. So a
fault leaves no trace. -/
def Makes (act : InPlace σ Unit) (change : σ → Except ShowFault σ) : Prop :=
  ∀ whole, act.run.run whole = match change whole with
    | .error f => (.error f, whole)
    | .ok changed => (.ok (), changed)

theorem Makes.within {part : σ → Except ShowFault τ} {put : τ → σ → σ}
    (hput : ∀ whole old, part whole = .ok old → put old whole = whole) {act : InPlace τ Unit}
    {change : τ → Except ShowFault τ} (h : Makes act change) :
    Makes (InPlace.within part put act) fun whole => do
      return put (← change (← part whole)) whole := by
  intro whole
  beta_reduce
  rw [run_within]
  cases hpart : part whole with
  | error f => rfl
  | ok old =>
    change (act.reply old, put (act.after old) whole) =
      match change old >>= fun changed => .ok (put changed whole) with
      | .error f => (Except.error f, whole)
      | .ok changed => (.ok (), changed)
    rw [reply, after, h old]
    cases change old with
    | error f => exact congrArg (Except.error f, ·) (hput whole old hpart)
    | ok changed => rfl

theorem makes_reorder (id : SheetId) (f : LineUp → LineUp) : Makes (reorder id f) fun c =>
    match c.editOrder? f with
    | some c' => .ok c'
    | none => .error (.notOrdered id c.label) := by
  intro c
  beta_reduce
  rw [reorder, run_get_bind]
  cases c.editOrder? f <;> rfl

theorem makes_editOrder (edit : OrderEdit) (active : SheetId) (f : LineUp → LineUp) :
    Makes (editOrder edit active f) fun s => s.editOrder edit active f := by
  intro s
  beta_reduce
  rw [editOrder, Show.editOrder]
  cases edit.get? active with
  | none => rfl
  | some ref =>
    dsimp only
    rw [Show.editContinuity, Show.onSheet_eq]
    refine Makes.within (fun s t ht => Show.setSheet_self (Show.sheetAt_eq_ok_iff.mp ht)) ?_ s
    exact (makes_reorder edit.sheet f).within fun t c hc => Sheet.setContinuity_self hc

section Runs

variable (s : Show)

theorem run_addDot (id : DotId) (label : String) :
    (addDot id label).run.run s = match s.dot? id with
      | some _ => (.error (.duplicateDot id), s)
      | none => (.ok ⟨id, label⟩, { s with dots := s.dots ++ [⟨id, label⟩] }) := by
  rw [addDot, run_get_bind]
  cases s.dot? id <;> rfl

theorem run_onSheet (id : SheetId) (act : InPlace Sheet α) :
    (onSheet id act).run.run s = match s.sheet? id with
      | none => (.error (.unknownSheet id), s)
      | some t => (act.reply t, s.setSheet id (act.after t)) := by
  rw [onSheet, run_within, Show.sheetAt]
  cases s.sheet? id <;> rfl

theorem run_place (id : SheetId) (dot : DotId) (spot : Spot) (symbol : Symbol) :
    (place id dot spot symbol).run.run s = match s.dot? dot, s.sheet? id with
      | none, _ => (.error (.unknownDot dot (.sheet id)), s)
      | some _, none => (.error (.unknownSheet id), s)
      | some _, some t => (.ok (),
        s.setSheet id { t with positions := t.positions.insert dot ⟨spot, symbol⟩ }) := by
  rw [place, run_get_bind]
  cases s.dot? dot with
  | none => rfl
  | some d =>
    change (onSheet id _).run.run s = _
    rw [run_onSheet]
    cases s.sheet? id <;> rfl

theorem run_openList (id : SheetId) (symbol : Symbol) :
    (onSheet id (onList symbol get)).run.run s = match s.sheet? id with
      | none => (.error (.unknownSheet id), s)
      | some t => (.ok (t.list symbol), s.setSheet id (t.editList symbol fun _ => t.list symbol)) :=
  run_onSheet s id _

end Runs

theorem run_discard (act : InPlace σ α) (whole : σ) : (discard act).run.run whole =
    ((act.reply whole).map fun _ => (), act.after whole) := by
  change ((fun _ => ()) <$> act).run.run whole = _
  rw [ExceptT.run_map, StateT.run_map]
  rfl

end InPlace

inductive Edit where
  | addDot (id : DotId) (label : String)
  | addSheet (label : String) (beats : UInt32)
  | place (sheet : SheetId) (dot : DotId) (spot : Spot) (symbol : Symbol)
  | openList (sheet : SheetId) (symbol : Symbol)
  | reverse (edit : OrderEdit) (active : SheetId)

namespace Edit

def act : Edit → InPlace Show Unit
  | addDot id label => discard (InPlace.addDot id label)
  | addSheet label beats => discard (InPlace.addSheet label beats)
  | place sheet dot spot symbol => InPlace.place sheet dot spot symbol
  | openList sheet symbol => discard (InPlace.onSheet sheet (InPlace.onList symbol get))
  | reverse edit active => InPlace.editOrder edit active List.reverse

def reply (e : Edit) (s : Show) : Except ShowFault Unit := e.act.reply s

def after (e : Edit) (s : Show) : Show := e.act.after s

/-- A sheet is only added while none bears the largest number, and spots are finite. -/
def Allowed (s : Show) : Edit → Prop
  | addSheet .. => ∀ t ∈ s.sheets, t.id ≠ .top
  | place _ _ spot _ => spot.x.isFinite ∧ spot.y.isFinite
  | _ => True

inductive Changes (s : Show) : Edit → Show → Prop
  | addDot {id : DotId} {label : String} (new : id ∉ s.dotIds) :
      Changes s (.addDot id label) { s with dots := s.dots ++ [⟨id, label⟩] }
  | addSheet {label : String} {beats : UInt32} :
      Changes s (.addSheet label beats) (s.addSheet label beats).2
  | place {id : SheetId} {dot : DotId} {spot : Spot} {symbol : Symbol} {t : Sheet}
      (known : dot ∈ s.dotIds) (found : s.sheet? id = some t) :
      Changes s (.place id dot spot symbol)
        (s.setSheet id { t with positions := t.positions.insert dot ⟨spot, symbol⟩ })
  | openList {id : SheetId} {symbol : Symbol} {t : Sheet} (found : s.sheet? id = some t) :
      Changes s (.openList id symbol)
        (s.setSheet id (t.editList symbol fun _ => t.list symbol))
  | reverse {edit : OrderEdit} {active : SheetId} {s' : Show}
      (edited : s.editOrder edit active List.reverse = .ok s') :
      Changes s (.reverse edit active) s'

theorem run_cases (e : Edit) (s : Show) : (∃ f, e.act.run.run s = (.error f, s)) ∨
    ∃ s', e.act.run.run s = (.ok (), s') ∧ Changes s e s' := by
  cases e with
  | addDot id label =>
    have hrun := InPlace.run_addDot s id label
    rw [act, InPlace.run_discard, InPlace.reply, InPlace.after]
    cases hdot : s.dot? id with
    | some dot =>
      rw [hdot] at hrun
      rw [hrun]
      exact .inl ⟨_, rfl⟩
    | none =>
      rw [hdot] at hrun
      rw [hrun]
      refine .inr ⟨_, rfl, .addDot ?_⟩
      rw [← Show.dot?_isSome_iff, hdot]
      exact Bool.false_ne_true
  | addSheet label beats => exact .inr ⟨_, rfl, .addSheet⟩
  | place id dot spot symbol =>
    rw [act, InPlace.run_place]
    cases hdot : s.dot? dot with
    | none => exact .inl ⟨_, rfl⟩
    | some d =>
      cases hsheet : s.sheet? id with
      | none => exact .inl ⟨_, rfl⟩
      | some t =>
        refine .inr ⟨_, rfl, .place ?_ hsheet⟩
        rw [← Show.dot?_isSome_iff, hdot, Option.isSome_some]
  | openList id symbol =>
    have hrun := InPlace.run_openList s id symbol
    rw [act, InPlace.run_discard, InPlace.reply, InPlace.after, hrun]
    cases hsheet : s.sheet? id with
    | none => exact .inl ⟨_, rfl⟩
    | some t => exact .inr ⟨_, rfl, .openList hsheet⟩
  | reverse edit active =>
    have hrun := InPlace.makes_editOrder edit active List.reverse s
    beta_reduce at hrun
    rw [act, hrun]
    cases hedit : s.editOrder edit active List.reverse with
    | error f => exact .inl ⟨f, rfl⟩
    | ok s' => exact .inr ⟨s', rfl, .reverse hedit⟩

end Edit

section Known

variable {known more : List DotId} (hsub : known ⊆ more)
include hsub

theorem Continuity.Valid.mono {c : Continuity} (h : c.Valid known) : c.Valid more :=
  ⟨h.pace, fun order horder dot hdot => hsub (h.order order horder dot hdot)⟩

theorem Sheet.Valid.mono {t : Sheet} (h : t.Valid known) : t.Valid more where
  pace := h.pace
  positions := fun dot hdot => hsub (h.positions dot hdot)
  continuities := fun list hlist c hc d hd => (h.continuities list hlist c hc d hd).mono hsub

end Known

namespace Sheet

variable {t : Sheet}

theorem mem_values_place {dot : DotId} {p q : Placement}
    (h : q ∈ (t.positions.insert dot p).values) : q ∈ t.positions.values ∨ q = p := by
  obtain ⟨e, he, rfl⟩ := List.mem_map.mp h
  rcases OrderedMap.mem_putEntry he with hold | rfl
  · exact .inl (List.mem_map_of_mem hold)
  · exact .inr rfl

theorem Storable.place (h : t.Storable) (dot : DotId) {p : Placement}
    (hp : p.spot.x.isFinite ∧ p.spot.y.isFinite) :
    Storable { t with positions := t.positions.insert dot p } where
  positions := by
    intro q hq
    rcases mem_values_place hq with hold | rfl
    · exact h.positions q hold
    · exact hp
  finite := h.finite
  depth := h.depth

theorem Valid.place {known : List DotId} (h : t.Valid known) {dot : DotId} (hdot : dot ∈ known)
    (p : Placement) : Valid known { t with positions := t.positions.insert dot p } where
  pace := h.pace
  positions := by
    intro other hother
    rcases (OrderedMap.mem_keys_putEntry _).mp hother with rfl | hold
    · exact hdot
    · exact h.positions other hold
  continuities := h.continuities

section OpenList

variable (symbol : Symbol)

theorem forall_openList {P : Symbol → Continuity → Prop}
    (hall : ∀ e ∈ t.continuities.entries, ∀ d ∈ e.2, P e.1 d) :
    ∀ e ∈ (t.editList symbol fun _ => t.list symbol).continuities.entries, ∀ d ∈ e.2,
      P e.1 d := by
  intro e he d hd
  rcases OrderedMap.mem_putEntry he with hold | rfl
  · exact hall e hold d hd
  · obtain ⟨old, hold, rfl, hmem⟩ := mem_of_mem_list hd
    exact hall old hold d hmem

theorem Storable.openList (h : t.Storable) :
    (t.editList symbol fun _ => t.list symbol).Storable where
  positions := h.positions
  finite := by
    have hfinite := h.finite
    rw [OrderedMap.values, List.forall_mem_map] at hfinite ⊢
    exact forall_openList (P := fun _ d => ∀ x ∈ d.floats, x.isFinite) symbol hfinite
  depth := by
    have hdepth := h.depth
    rw [OrderedMap.values, List.forall_mem_map] at hdepth ⊢
    exact forall_openList (P := fun _ d => d.toJson.depth ≤ continuityRoom) symbol hdepth

theorem Valid.openList {known : List DotId} (h : t.Valid known) :
    (t.editList symbol fun _ => t.list symbol).Valid known where
  pace := h.pace
  positions := h.positions
  continuities := by
    have hall := h.continuities
    rw [OrderedMap.values, List.forall_mem_map] at hall ⊢
    exact forall_openList (P := fun _ e => ∀ d : Continuity, d.Within e → d.Valid known) symbol hall

theorem retagged_openList (h : Show.retagged t = t) :
    Show.retagged (t.editList symbol fun _ => t.list symbol) =
      t.editList symbol fun _ => t.list symbol := by
  rw [retagged_eq_self_iff] at h ⊢
  exact forall_openList (P := fun symbol d => Continuity.retag symbol d = d) symbol h

end OpenList

end Sheet

namespace Show

variable {s : Show}

theorem stored_blank (name : String) : (blank name).Stored where
  valid := ⟨UInt32.le_refl 1, List.nodup_nil, List.nodup_nil, nofun⟩
  storable := nofun
  filed := nofun
  counter := rfl

theorem Stored.addDot (h : s.Stored) {id : DotId} (hnew : id ∉ s.dotIds) (label : String) :
    Stored { s with dots := s.dots ++ [⟨id, label⟩] } where
  valid := by
    have hids : dotIds { s with dots := s.dots ++ [⟨id, label⟩] } = s.dotIds ++ [id] :=
      List.map_append
    refine ⟨h.valid.pace, ?_, h.valid.sheetIds, ?_⟩
    · rw [hids, List.nodup_append_comm]
      exact List.nodup_cons.mpr ⟨hnew, h.valid.dots⟩
    · rw [hids]
      exact fun t ht => (h.valid.sheets t ht).mono (List.subset_append_left _ _)
  storable := h.storable
  filed := h.filed
  counter := h.counter

theorem Stored.addSheet (h : s.Stored) (htop : ∀ t ∈ s.sheets, t.id ≠ .top) (label : String)
    (beats : UInt32) : (s.addSheet label beats).2.Stored := by
  have hbelow : ∀ id ∈ s.sheetIds, id.number.toNat < s.counter.next.toNat := by
    intro id hid
    have hnone : ∀ id ∈ s.sheetIds, id ≠ .top := List.forall_mem_map.mpr htop
    rw [h.counter, toNat_next_skip, behindTop_of_ne hnone]
    exact lt_onePast (List.mem_reverse.mpr hid)
  have hids : (s.addSheet label beats).2.sheetIds = s.sheetIds ++ [⟨s.counter.next⟩] :=
    List.map_append
  have hnew : ⟨s.counter.next⟩ ∉ s.sheetIds := fun hmem => (hbelow _ hmem).ne rfl
  have hsheets : (s.addSheet label beats).2.sheets =
      s.sheets ++ [.blank ⟨s.counter.next⟩ label beats] := rfl
  refine ⟨⟨h.valid.pace, h.valid.dots, ?_, ?_⟩, ?_, ?_, ?_⟩
  · rw [hids, List.nodup_append_comm]
    exact List.nodup_cons.mpr ⟨hnew, h.valid.sheetIds⟩
  · rw [hsheets, List.forall_mem_append, List.forall_mem_singleton]
    exact ⟨h.valid.sheets, nofun, nofun, nofun⟩
  · rw [hsheets, List.forall_mem_append, List.forall_mem_singleton]
    exact ⟨h.storable, nofun, nofun, nofun⟩
  · rw [hsheets, List.forall_mem_append, List.forall_mem_singleton]
    exact ⟨h.filed, rfl⟩
  · rw [hids, List.foldl_concat, ← h.counter]
    exact (if_pos (UInt32.le_refl s.counter.next)).symm

theorem Stored.setSheet (h : s.Stored) {id : SheetId} {t u : Sheet}
    (found : s.sheet? id = some t) (hid : u.id = t.id)
    (hvalid : t.Valid s.dotIds → u.Valid s.dotIds) (hstorable : t.Storable → u.Storable)
    (hfiled : retagged t = t → retagged u = u) : (s.setSheet id u).Stored := by
  have ht := List.mem_of_find?_eq_some found
  have hids := sheetIds_setSheet found hid
  have hkeep : ∀ {P : Sheet → Prop}, (∀ v ∈ s.sheets, P v) → (P t → P u) →
      ∀ v ∈ (s.setSheet id u).sheets, P v := by
    intro P hall hchange v hv
    rcases List.mem_or_eq_of_mem_set hv with hold | rfl
    · exact hall v hold
    · exact hchange (hall t ht)
  refine ⟨⟨h.valid.pace, h.valid.dots, ?_, hkeep h.valid.sheets hvalid⟩,
    hkeep h.storable hstorable, hkeep h.filed hfiled, ?_⟩
  · rw [hids]
    exact h.valid.sheetIds
  · rw [hids]
    exact h.counter

theorem Stored.of_changes (h : s.Stored) {e : Edit} (hallowed : e.Allowed s) {s' : Show}
    (hchanges : Edit.Changes s e s') : s'.Stored := by
  cases hchanges with
  | addDot new => exact h.addDot new _
  | addSheet => exact h.addSheet hallowed _ _
  | place known found =>
    exact h.setSheet found rfl (fun ht => ht.place known _) (fun ht => ht.place _ hallowed)
      fun ht => by rw [Sheet.retagged_eq_self_iff] at ht ⊢; exact ht
  | openList found =>
    exact h.setSheet found rfl (fun ht => ht.openList _) (fun ht => ht.openList _)
      (Sheet.retagged_openList _)
  | reverse edited =>
    exact h.editOrder (fun order => List.reverse_subset.mpr (List.Subset.refl order)) edited

/-- A show that another one has become by allowed calls in turn, whether they failed or not. -/
inductive Becomes (s : Show) : Show → Prop
  | start : Becomes s s
  | call {u : Show} (before : Becomes s u) {e : Edit} (allowed : e.Allowed u) :
      Becomes s (e.after u)

theorem Stored.after (h : s.Stored) {e : Edit} (hallowed : e.Allowed s) : (e.after s).Stored := by
  rw [Edit.after, InPlace.after]
  rcases e.run_cases s with ⟨f, hrun⟩ | ⟨s', hrun, hchanges⟩
  · rw [hrun]
    exact h
  · rw [hrun]
    exact h.of_changes hallowed hchanges

theorem Stored.of_becomes (h : s.Stored) {u : Show} (hu : s.Becomes u) : u.Stored := by
  induction hu with
  | start => exact h
  | call before allowed ih => exact ih.after allowed

theorem validate_of_valid (h : s.Valid) : s.validate = .ok () := by
  rw [validate, s.fault?_eq_none_iff.mpr h]

theorem after_of_error {e : Edit} {f : ShowFault} (h : e.reply s = .error f) : e.after s = s := by
  rw [Edit.reply, InPlace.reply] at h
  rw [Edit.after, InPlace.after]
  rcases e.run_cases s with ⟨_, hrun⟩ | ⟨_, hrun, -⟩
  · rw [hrun]
  · rw [hrun] at h
    cases h

/-- A blank show, or one that has been read, stays valid and comes back as it is from its own text,
whatever dots, sheets, spots and lists are added to it and whatever orders are reversed. A call that
fails leaves the show as it was. -/
theorem editing_keeps_valid {s u : Show}
    (hs : (∃ name, s = blank name) ∨ ∃ names doc, ofText names doc = .ok s)
    (hu : s.Becomes u) :
    u.validate = .ok () ∧ (∀ names, ofText names u.toText = .ok u) ∧
      ∀ (e : Edit) (f : ShowFault), e.reply u = .error f → e.after u = u := by
  have hstored : u.Stored := by
    rcases hs with ⟨name, rfl⟩ | ⟨names, doc, hread⟩
    · exact (stored_blank name).of_becomes hu
    · exact (Stored.of_ofText hread).of_becomes hu
  exact ⟨validate_of_valid hstored.valid, hstored.reads_back, fun _ _ => after_of_error⟩

/-- A two-step of two dots on one sheet, where the second dot has no spot. -/
def absenteeTwoStepDocument : String :=
  "[\"u\",1,\"east\",[[\"A\"],[\"B\"]],[[0,\"\",8,null,null,\x7b\"A\":[0,0]\x7d," ++
    "\x7b\"plain\":[\x7b\"type\":\"two\",\"order\":[\"A\",\"B\"]\x7d]\x7d]]]"

def firstPlain : OrderEdit := ⟨⟨0⟩, .plain, 0⟩

def orders (s : Show) : List (Option LineUp) :=
  s.sheets.flatMap fun t => t.allContinuities.map Continuity.order?

theorem editing_keeps_valid_in_three_calls : ∃ s u,
    ofText (.same "c") absenteeTwoStepDocument = .ok s ∧ s.Becomes u ∧
    s.orders = [some [⟨"A"⟩, ⟨"B"⟩]] ∧ u.orders = [some [⟨"B"⟩, ⟨"A"⟩]] ∧
    u.sheetIds = [⟨0⟩, ⟨1⟩] ∧ u.validate = .ok () ∧ ofText (.same "c") u.toText = .ok u ∧
    (Edit.reverse firstPlain ⟨1⟩).after u = u := by
  let edited (s : Show) : Show := (Edit.addSheet "" 4).after
    ((Edit.reverse firstPlain ⟨0⟩).after ((Edit.openList ⟨0⟩ .solid).after s))
  have hrun : (ofText (.same "c") absenteeTwoStepDocument).toOption.any (fun s => decide
      (s.orders = [some [⟨"A"⟩, ⟨"B"⟩]] ∧ (edited s).orders = [some [⟨"B"⟩, ⟨"A"⟩]] ∧
        (edited s).sheetIds = [⟨0⟩, ⟨1⟩] ∧
        ∀ t ∈ ((Edit.reverse firstPlain ⟨0⟩).after ((Edit.openList ⟨0⟩ .solid).after s)).sheets,
          t.id ≠ .top)) = true := by
    decide +kernel
  obtain ⟨s, hread, hfacts⟩ := exists_ok_of_any hrun
  obtain ⟨hbefore, hafter, hids, hroom⟩ := of_decide_eq_true hfacts
  have hopened : s.Becomes ((Edit.openList ⟨0⟩ .solid).after s) := .call .start trivial
  have hreversed : s.Becomes ((Edit.reverse firstPlain ⟨0⟩).after _) := .call hopened trivial
  have hbecomes : s.Becomes (edited s) := .call hreversed hroom
  obtain ⟨hvalid, hreads, hfails⟩ :=
    editing_keeps_valid (.inr ⟨.same "c", absenteeTwoStepDocument, hread⟩) hbecomes
  exact ⟨s, edited s, hread, hbecomes, hbefore, hafter, hids, hvalid, hreads (.same "c"),
    hfails _ (.editExpired ⟨0⟩ ⟨1⟩) rfl⟩

end Show

end MarchingDrill
