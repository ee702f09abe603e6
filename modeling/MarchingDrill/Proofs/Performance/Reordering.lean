import MarchingDrill.Proofs.Performance.Bystanders
import MarchingDrill.Proofs.Performance.Foresight
import MarchingDrill.Proofs.Show.Reordering

/-! What a new order changes. It matters to the dots that carry out the continuity, from the sheet
of the continuity on, and to nobody else. -/

namespace MarchingDrill

theorem Sheet.AlikeFor.refl (dot : DotId) (t : Sheet) : t.AlikeFor dot t :=
  ⟨rfl, rfl, rfl, rfl, rfl, fun _ _ => List.forall₂_same.mpr fun c _ => .refl dot c,
    fun _ _ _ _ => rfl⟩

namespace Sheet.DiffersAt

variable {ref : ContinuityRef} {c c' : Continuity} {t u : Sheet} (h : t.DiffersAt ref c c' u)
include h

theorem list_eq {symbol : Symbol} (hne : symbol ≠ ref.symbol) : t.list symbol = u.list symbol := by
  obtain ⟨es, cs, ds, fs, -, hold, hnew⟩ := h.entries
  have hskip : (symbol == ref.symbol) = false := beq_false_of_ne hne
  rw [list, list, OrderedMap.get?, OrderedMap.get?, hold, hnew, List.lookup_append,
    List.lookup_append, List.lookup_cons, List.lookup_cons, hskip]

theorem alikeFor {dot : DotId}
    (hother : ∀ p, t.positions.get? dot = some p → p.symbol ≠ ref.symbol) : t.AlikeFor dot u := by
  have hpositions : t.positions = u.positions := by rw [h.rest]
  refine ⟨?_, ?_, ?_, ?_, ?_, ?_, ?_⟩
  · rw [h.rest]
  · rw [h.rest]
  · rw [h.rest]
  · rw [h.rest]
  · rw [hpositions]
  · intro p hp
    rw [← h.list_eq (hother p hp)]
    exact List.forall₂_same.mpr fun c _ => .refl dot c
  · intro p _ other _
    rw [spot?, spot?, hpositions]

end Sheet.DiffersAt

namespace Show.DiffersAt

variable {edit : OrderEdit} {c c' : Continuity} {s u : Show} (h : s.DiffersAt edit c c' u)
include h

theorem dotIds_eq : s.dotIds = u.dotIds := by
  rw [h.rest]
  rfl

theorem sheetIds_eq : s.sheetIds = u.sheetIds := by
  obtain ⟨front, t, v, back, hold, hnew, -, hsheet⟩ := h.sheets
  have hid : t.id = v.id := by rw [hsheet.rest]
  simp only [sheetIds, hold, hnew, List.map_append, List.map_cons, hid]

theorem alikeFor (hnodup : s.sheetIds.Nodup) {dot : DotId}
    (hother : s.symbol? edit.sheet dot ≠ some edit.value.symbol) : s.AlikeFor dot u := by
  obtain ⟨front, t, v, back, hold, hnew, hid, hsheet⟩ := h.sheets
  have ht : t ∈ s.sheets := hold ▸ List.mem_append_right _ List.mem_cons_self
  refine ⟨by rw [h.rest], by rw [h.rest], ?_⟩
  rw [hold, hnew]
  refine List.rel_append (List.forall₂_same.mpr fun t _ => .refl dot t)
    (.cons (hsheet.alikeFor fun p hp hsymbol => hother ?_)
      (List.forall₂_same.mpr fun t _ => .refl dot t))
  rw [← hid, symbol?_of_mem hnodup ht, hp, Option.map_some, hsymbol]

theorem agreeUpTo (hnodup : s.sheetIds.Nodup) {k : Nat} (hk : s.sheetIds[k]? = some edit.sheet) :
    AgreeUpTo k s u := by
  obtain ⟨front, t, v, back, hold, hnew, hid, hsheet⟩ := h.sheets
  have hplace : s.sheetIds[front.length]? = some edit.sheet := by
    rw [sheetIds, hold, ← hid]
    simp
  have hlength : front.length = k :=
    (List.getElem?_inj (List.getElem?_eq_some_iff.mp hplace).1 hnodup).mp (hplace.trans hk.symm)
  subst hlength
  refine ⟨h.dotIds_eq, by rw [h.rest], by rw [h.rest], ?_, fun dot => ?_⟩
  · rw [hold, hnew, List.take_left, List.take_left]
  · have hspot : t.spot? dot = v.spot? dot := by
      rw [hsheet.rest]
      rfl
    rw [hold, hnew, List.getElem?_append_right (Nat.le_refl _),
      List.getElem?_append_right (Nat.le_refl _), Nat.sub_self]
    exact congrArg some hspot

theorem track?_eq (hnodup : s.sheetIds.Nodup) {dot : DotId}
    (hother : s.symbol? edit.sheet dot ≠ some edit.value.symbol) (settings : Settings) :
    (s.perform settings).track? dot = (u.perform settings).track? dot := by
  have hstays := (h.alikeFor hnodup hother).performSheets_eq hnodup settings
  rw [track?_perform_eq, track?_perform_eq, ← h.dotIds_eq]
  refine Option.map_congr fun d hd => ?_
  have hdot : d = dot := by simpa using List.find?_some hd
  rw [hdot, hstays]

end Show.DiffersAt

namespace Show

/-- An edit of an order touches that order and nothing else. It is refused for one of four reasons,
whatever it would make of the order, and then the show stays as it is. Else the order of the
continuity that it points at becomes what the edit makes of it, and the rest of the show stays as it
is. All that dots do stays the same but for those that carry out this continuity, and even they do
what they did before until its sheet begins. To reverse an order twice restores the show, its text
and its performance. -/
theorem edit_touches_one_order {names : Names} {doc : String} {s : Show}
    (hread : ofText names doc = .ok s) (edit : OrderEdit) (active : SheetId) :
    (∀ (f : LineUp → LineUp) (fault : ShowFault),
      (InPlace.editOrder edit active f).reply s = .error fault ↔ s.Refuses edit active fault) ∧
    (∀ (f : LineUp → LineUp) (fault : ShowFault), s.Refuses edit active fault →
      (InPlace.editOrder edit active f).after s = s) ∧
    (∀ f : LineUp → LineUp, (¬∃ fault, s.Refuses edit active fault) →
      (InPlace.editOrder edit active f).reply s = .ok () ∧
      let u := (InPlace.editOrder edit active f).after s
      (∃ c c', c.Reordered f c' ∧ s.DiffersAt edit c c' u) ∧
      ∀ (settings : Settings) (dot : DotId),
        (s.symbol? edit.sheet dot ≠ some edit.value.symbol →
          (s.perform settings).track? dot = (u.perform settings).track? dot) ∧
        ∀ k, s.sheetIds[k]? = some edit.sheet →
          ((s.perform settings).track? dot).map (fun t => t.segments.take k) =
            ((u.perform settings).track? dot).map fun t => t.segments.take k) ∧
    let reverse := InPlace.editOrder edit active List.reverse
    let u := reverse.after (reverse.after s)
    reverse.reply (reverse.after s) = reverse.reply s ∧ u = s ∧ u.toText = s.toText ∧
      ∀ settings, u.perform settings = s.perform settings := by
  have hnodup := sheetIds_nodup (validate_of_ofText hread)
  have hrun (f : LineUp → LineUp) := InPlace.makes_editOrder edit active f
  refine ⟨?_, ?_, ?_, ?_⟩
  · intro f fault
    rw [← editOrder_eq_error_iff hnodup f]
    cases hedit : s.editOrder edit active f with
    | error fault' =>
      rw [((hrun f).of_error hedit).1, Except.error.injEq, Except.error.injEq]
    | ok u =>
      rw [((hrun f).of_ok hedit).1]
      exact iff_of_false nofun nofun
  · intro f fault hrefuses
    exact ((hrun f).of_error (hrefuses.editOrder_eq hnodup f)).2
  · intro f hmade
    cases hedit : s.editOrder edit active f with
    | error fault => exact absurd ⟨fault, (editOrder_eq_error_iff hnodup f).mp hedit⟩ hmade
    | ok u =>
      obtain ⟨hreply, hafter⟩ := (hrun f).of_ok hedit
      rw [hafter]
      obtain ⟨c, c', hreordered, hdiffers⟩ := editOrder_differsAt hedit
      refine ⟨hreply, ⟨c, c', hreordered, hdiffers⟩, fun settings dot => ⟨?_, ?_⟩⟩
      · exact fun hother => hdiffers.track?_eq hnodup hother settings
      · intro k hk
        have hu : u.sheetIds.Nodup := hdiffers.sheetIds_eq ▸ hnodup
        exact (hdiffers.agreeUpTo hnodup hk).map_segments hnodup hu settings dot
  · intro reverse u
    have hback : reverse.reply (reverse.after s) = reverse.reply s ∧ u = s := by
      cases hedit : s.editOrder edit active List.reverse with
      | error fault =>
        have hafter : reverse.after s = s := ((hrun _).of_error hedit).2
        exact ⟨congrArg reverse.reply hafter, (congrArg reverse.after hafter).trans hafter⟩
      | ok s' =>
        obtain ⟨hreply, hafter⟩ : reverse.reply s = .ok () ∧ reverse.after s = s' :=
          (hrun _).of_ok hedit
        have hundone := editOrder_undone hnodup List.reverse_reverse hedit
        obtain ⟨hreply', hafter'⟩ : reverse.reply s' = .ok () ∧ reverse.after s' = s :=
          (hrun _).of_ok hundone
        change reverse.reply (reverse.after s) = _ ∧ reverse.after (reverse.after s) = s
        rw [hreply, hafter]
        exact ⟨hreply', hafter'⟩
    exact ⟨hback.1, hback.2, congrArg toText hback.2, fun settings =>
      congrArg (perform · settings) hback.2⟩

theorem edit_touches_one_order_of_pair : ∃ s, ofText (.same "c") absenteeTwoStepDocument = .ok s ∧
    let reverse := InPlace.editOrder firstPlain ⟨0⟩ List.reverse
    reverse.reply s = .ok () ∧ s.orders = [some [⟨"A"⟩, ⟨"B"⟩]] ∧
    (reverse.after s).orders = [some [⟨"B"⟩, ⟨"A"⟩]] ∧
    (s.perform .standard).track? ⟨"B"⟩ = ((reverse.after s).perform .standard).track? ⟨"B"⟩ ∧
    reverse.after (reverse.after s) = s ∧
    (InPlace.editOrder firstPlain ⟨1⟩ List.reverse).after s = s := by
  have hrun : (ofText (.same "c") absenteeTwoStepDocument).toOption.any (fun s => decide
      (((InPlace.editOrder firstPlain ⟨0⟩ List.reverse).reply s).toOption = some () ∧
        s.orders = [some [⟨"A"⟩, ⟨"B"⟩]] ∧
        ((InPlace.editOrder firstPlain ⟨0⟩ List.reverse).after s).orders =
          [some [⟨"B"⟩, ⟨"A"⟩]] ∧
        s.symbol? ⟨0⟩ ⟨"B"⟩ ≠ some .plain)) = true := by
    decide +kernel
  obtain ⟨s, hread, hfacts⟩ := exists_ok_of_any hrun
  obtain ⟨hok, hbefore, hafter, hother⟩ := of_decide_eq_true hfacts
  obtain ⟨hrefused, -, hmade, -, hback, -⟩ := edit_touches_one_order hread firstPlain ⟨0⟩
  have hnone : ¬∃ fault, s.Refuses firstPlain ⟨0⟩ fault := by
    rintro ⟨fault, hfault⟩
    rw [(hrefused List.reverse fault).mpr hfault] at hok
    cases hok
  obtain ⟨hreply, -, hsame⟩ := hmade List.reverse hnone
  obtain ⟨-, hstays, -⟩ := edit_touches_one_order hread firstPlain ⟨1⟩
  exact ⟨s, hread, hreply, hbefore, hafter, (hsame .standard ⟨"B"⟩).1 hother, hback,
    hstays List.reverse _ (.expired (by decide))⟩

end Show

end MarchingDrill
