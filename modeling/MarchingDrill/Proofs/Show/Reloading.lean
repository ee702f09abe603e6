import MarchingDrill.Proofs.Show.Edits
import MarchingDrill.Proofs.Show.Storage
import MarchingDrill.Proofs.Show.Violations

/-! Reloading: a show that has been read, and in which orders have been edited since, comes back as
it is from its own text. -/

namespace MarchingDrill

open Json

theorem LineUp.depth_toJson_le {order : LineUp} {n : Nat} (h : order.toJson.depth ≤ n)
    (other : LineUp) : other.toJson.depth ≤ n := by
  cases n with
  | zero => cases h
  | succ n => exact other.depth_toJson.trans (Nat.succ_le_succ (Nat.zero_le n))

namespace Continuity

variable {f : LineUp → LineUp} {c c' : Continuity}

theorem retagAll_eq_self_iff {s : Symbol} {cs : List Continuity} :
    retagAll s cs = cs ↔ ∀ c ∈ cs, retag s c = c := by
  induction cs with
  | nil => simp [retagAll]
  | cons c cs ih => rw [retagAll, List.cons.injEq, ih, List.forall_mem_cons]

namespace Reordered

theorem valid (h : c.Reordered f c') (hf : ∀ order, f order ⊆ order) {known : List DotId}
    (hc : c.Valid known) : c'.Valid known := by
  have hshort : ∀ order, (∀ dot ∈ order, dot ∈ known) → ∀ dot ∈ f order, dot ∈ known :=
    fun order horder dot hdot => horder dot (hf order hdot)
  cases h with
  | counterMarch tag order duration =>
    refine ⟨hc.pace, ?_⟩
    rintro _ ⟨⟩
    exact hshort order (hc.order order rfl)
  | followLeader tag order path =>
    refine ⟨hc.pace, ?_⟩
    rintro _ ⟨⟩
    exact hshort order (hc.order order rfl)
  | twoStep tag order markTime parts =>
    refine ⟨hc.pace, ?_⟩
    rintro _ ⟨⟩
    exact hshort order (hc.order order rfl)

theorem within (h : c.Reordered f c') {d : Continuity} (hd : d.Within c') :
    d = c' ∨ d.Within c := by
  cases h with
  | counterMarch | followLeader =>
    cases hd
    exact .inl rfl
  | twoStep tag order markTime parts =>
    cases hd with
    | self => exact .inl rfl
    | part mem within => exact .inr (.part mem within)

theorem floats_eq (h : c.Reordered f c') : c'.floats = c.floats := by
  cases h <;> rfl

theorem retag_eq_self (h : c.Reordered f c') {s : Symbol} (hc : retag s c = c) :
    retag s c' = c' := by
  cases h with
  | counterMarch | followLeader =>
    simp only [retag, figure.injEq, and_true] at hc ⊢
    exact hc
  | twoStep =>
    simp only [retag, twoStep.injEq, true_and] at hc ⊢
    exact hc

theorem depth_le (h : c.Reordered f c') {n : Nat} (hc : c.toJson.depth ≤ n) :
    c'.toJson.depth ≤ n := by
  cases n with
  | zero => cases hc
  | succ n =>
    cases h with
    | counterMarch tag order duration =>
      have hmembers := depth_tagged_le_iff.mp hc
      refine depth_tagged_le_iff.mpr ?_
      simp only [Figure.toMembers, List.forall_mem_append, List.forall_mem_cons] at hmembers ⊢
      obtain ⟨⟨htype, horder, hnil⟩, hduration⟩ := hmembers
      exact ⟨⟨htype, LineUp.depth_toJson_le horder (f order), hnil⟩, hduration⟩
    | followLeader tag order path =>
      have hmembers := depth_tagged_le_iff.mp hc
      refine depth_tagged_le_iff.mpr ?_
      simp only [Figure.toMembers, List.forall_mem_cons] at hmembers ⊢
      obtain ⟨htype, horder, hpath⟩ := hmembers
      exact ⟨htype, LineUp.depth_toJson_le horder (f order), hpath⟩
    | twoStep tag order markTime parts =>
      have hmembers := depth_tagged_le_iff.mp hc
      refine depth_tagged_le_iff.mpr ?_
      simp only [List.forall_mem_cons] at hmembers ⊢
      obtain ⟨htype, horder, hrest⟩ := hmembers
      exact ⟨htype, LineUp.depth_toJson_le horder (f order), hrest⟩

end Reordered

end Continuity

namespace Sheet

variable {t : Sheet} {ref : ContinuityRef} {f : LineUp → LineUp} {c c' : Continuity}

theorem Storable.setContinuity (h : t.Storable) (hat : t.continuityAt ref = .ok c)
    (hc : c.Reordered f c') : (t.setContinuity ref c').Storable where
  positions := h.positions
  finite := by
    have hfinite := h.finite
    rw [OrderedMap.values, List.forall_mem_map] at hfinite ⊢
    refine forall_setContinuity (P := fun _ d => ∀ x ∈ d.floats, x.isFinite) hfinite hat ?_
    intro symbol hold
    rwa [hc.floats_eq]
  depth := by
    have hdepth := h.depth
    rw [OrderedMap.values, List.forall_mem_map] at hdepth ⊢
    exact forall_setContinuity (P := fun _ d => d.toJson.depth ≤ continuityRoom) hdepth hat
      fun _ => hc.depth_le

theorem Valid.setContinuity {known : List DotId} (h : t.Valid known)
    (hf : ∀ order, f order ⊆ order) (hat : t.continuityAt ref = .ok c) (hc : c.Reordered f c') :
    (t.setContinuity ref c').Valid known where
  pace := h.pace
  positions := h.positions
  continuities := by
    have hall := h.continuities
    rw [OrderedMap.values, List.forall_mem_map] at hall ⊢
    refine forall_setContinuity (P := fun _ e => ∀ d : Continuity, d.Within e → d.Valid known)
      hall hat ?_
    intro symbol hold d hd
    rcases hc.within hd with rfl | hwithin
    · exact hc.valid hf (hold c .self)
    · exact hold d hwithin

theorem retagged_eq_self_iff : Show.retagged t = t ↔
    ∀ e ∈ t.continuities.entries, ∀ c ∈ e.2, Continuity.retag e.1 c = c := by
  have hentries : Show.retagged t = t ↔
      t.continuities.entries.map (fun e => (e.1, Continuity.retagAll e.1 e.2)) =
        t.continuities.entries.map fun e => e := by
    rw [List.map_id']
    constructor
    · exact congrArg fun u : Sheet => u.continuities.entries
    · intro h
      have hsame : (Show.retagged t).continuities = t.continuities := OrderedMap.ext h
      exact congrArg (fun cs => { t with continuities := cs }) hsame
  rw [hentries, List.map_inj_left]
  refine forall₂_congr fun e _ => ?_
  rw [← Continuity.retagAll_eq_self_iff, Prod.ext_iff, and_iff_right rfl]

theorem retagged_setContinuity (h : Show.retagged t = t) (hat : t.continuityAt ref = .ok c)
    (hc : c.Reordered f c') : Show.retagged (t.setContinuity ref c') = t.setContinuity ref c' := by
  rw [retagged_eq_self_iff] at h ⊢
  exact forall_setContinuity (P := fun symbol d => Continuity.retag symbol d = d) h hat
    fun _ => hc.retag_eq_self

end Sheet

namespace Show

/-- Shows as documents hold them: they are valid, all numbers and depths are ones that a document
can have, all continuities bear the symbols of their lists, and the counter is past the sheets. -/
structure Stored (s : Show) : Prop where
  valid : s.Valid
  storable : ∀ t ∈ s.sheets, t.Storable
  filed : ∀ t ∈ s.sheets, retagged t = t
  counter : s.counter = s.sheetIds.foldl SheetCounter.skip .start

variable {s : Show} {names : Names} {doc : String}

theorem Stored.of_ofText (h : ofText names doc = .ok s) : s.Stored where
  valid := s.fault?_eq_none_iff.mp (fault?_of_validate (validate_of_ofText h))
  storable := storable_of_ofText h
  filed := by
    obtain ⟨v, u, -, rfl⟩ := exists_decoded_of_ofText h
    exact List.forall_mem_map.mpr fun t _ => t.retagged_retagged
  counter := counter_of_ofText h

theorem Stored.reads_back (h : s.Stored) (names : Names) :
    ofText names s.toText = .ok s := by
  obtain ⟨u, hu⟩ : ∃ u : Show, u = { s with counter := .start } := ⟨_, rfl⟩
  have hdecoded : (Json.ofText? s.toText).bind (ofJson? names) = some u := by
    rw [toText, ofText?_toText s.legible_toJson, Option.bind_some, ofJson?_toJson h.storable, hu]
  have hvalid : u.Valid := hu ▸ ⟨h.valid.pace, h.valid.dots, h.valid.sheetIds, h.valid.sheets⟩
  have hnone : u.violations.head? = none := by
    rw [← fault?_eq_head?, fault?_eq_none_iff]
    exact hvalid
  have hnormalized : u.normalized = s := by
    have hsheets : s.sheets.map retagged = s.sheets.map id := List.map_congr_left h.filed
    rw [List.map_id] at hsheets
    rw [hu]
    change { s with
      sheets := s.sheets.map retagged
      counter := s.sheetIds.foldl SheetCounter.skip .start } = s
    rw [hsheets, ← h.counter]
  rw [ofText_of_decoded hdecoded, hnone, Option.elim_none, hnormalized]

theorem Stored.editOrder {s' : Show} (h : s.Stored) {edit : OrderEdit} {active : SheetId}
    {f : LineUp → LineUp} (hf : ∀ order, f order ⊆ order)
    (hedit : s.editOrder edit active f = .ok s') : s'.Stored := by
  have hids := sheetIds_editOrder hedit
  obtain ⟨before, t, after, c, c', -, hsheets, rfl, -, hat, hc⟩ := editOrder_eq_ok hedit
  have hkeep : ∀ {P : Sheet → Prop}, (∀ u ∈ s.sheets, P u) →
      (P t → P (t.setContinuity edit.value c')) →
      ∀ u ∈ before ++ t.setContinuity edit.value c' :: after, P u := by
    intro P hall hchange
    rw [hsheets, List.forall_mem_append, List.forall_mem_cons] at hall
    rw [List.forall_mem_append, List.forall_mem_cons]
    exact ⟨hall.1, hchange hall.2.1, hall.2.2⟩
  refine ⟨⟨h.valid.pace, h.valid.dots, ?_, ?_⟩, ?_, ?_, ?_⟩
  · rw [hids]
    exact h.valid.sheetIds
  · exact hkeep h.valid.sheets fun ht => ht.setContinuity hf hat hc
  · exact hkeep h.storable fun ht => ht.setContinuity hat hc
  · exact hkeep h.filed fun ht => Sheet.retagged_setContinuity ht hat hc
  · rw [hids]
    exact h.counter

end Show

end MarchingDrill
