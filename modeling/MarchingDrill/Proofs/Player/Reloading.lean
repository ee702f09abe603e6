import MarchingDrill.Proofs.Player.Session
import MarchingDrill.Proofs.Show.Reloading

/-! Reloading a player: a fresh player that loads the text of another one's show answers like it,
and goes on like it as soon as the same sheet is open in both. -/

namespace MarchingDrill.Player

def Call.leavesShow : Call → Bool
  | .load .. | .reverseOrder .. => false
  | _ => true

def replies (p : Player) : List Call → List (Except PlayerFault Answer)
  | [] => []
  | c :: calls => p.reply c :: (p.after c).replies calls

theorem session_nil (p : Player) : p.session [] = p := rfl

theorem session_cons (p : Player) (c : Call) (calls : List Call) :
    p.session (c :: calls) = (p.after c).session calls := rfl

theorem Call.leavesShow_cases {c : Call} (hc : c.leavesShow) :
    c.isQuery ∨ ∃ sheet, c = .openSheet sheet := by
  cases c with
  | load | reverseOrder => cases hc
  | openSheet sheet => exact .inr ⟨sheet, rfl⟩
  | _ => exact .inl rfl

section Stored

variable {p q : Player}

theorem Next.stored (h : p.Next q) (hp : ∀ s ∈ p.current, s.Stored) :
    ∀ s ∈ q.current, s.Stored := by
  cases h with
  | load read =>
    rintro s ⟨⟩
    exact .of_ofText read
  | openSheet => exact hp
  | reverseOrder current opened edited =>
    rintro s' ⟨⟩
    refine (hp _ current).editOrder ?_ edited
    exact fun order => List.reverse_subset.mpr (List.Subset.refl order)

theorem session_stored (hp : ∀ s ∈ p.current, s.Stored) (calls : List Call) :
    ∀ s ∈ (p.session calls).current, s.Stored := by
  induction calls generalizing p with
  | nil => exact hp
  | cons c calls ih =>
    rw [session_cons]
    refine ih ?_
    obtain hsame | ⟨-, hnext⟩ := atomic c p
    · rw [hsame]
      exact hp
    · exact hnext.stored hp

end Stored

section SameShow

structure SameShow (p q : Player) : Prop where
  settings : p.settings = q.settings
  current : p.current = q.current
  performance : p.performance = q.performance

namespace SameShow

variable {p q r : Player}

theorem refl (p : Player) : SameShow p p := ⟨rfl, rfl, rfl⟩

theorem symm (h : SameShow p q) : SameShow q p :=
  ⟨h.settings.symm, h.current.symm, h.performance.symm⟩

theorem trans (h : SameShow p q) (h' : SameShow q r) : SameShow p r :=
  ⟨h.settings.trans h'.settings, h.current.trans h'.current, h.performance.trans h'.performance⟩

theorem eq_of_active (h : SameShow p q) (hactive : p.active = q.active) : p = q := by
  obtain ⟨settings, current, performance, active⟩ := p
  obtain ⟨rfl, rfl, rfl⟩ := h
  cases hactive
  rfl

theorem reply {c : Call} (h : SameShow p q) (hc : c.leavesShow) : p.reply c = q.reply c := by
  obtain ⟨settings, current, performance, active⟩ := p
  obtain ⟨_, _, _, active'⟩ := q
  obtain ⟨rfl, rfl, rfl⟩ := h
  cases current with
  | none => cases c <;> first | rfl | cases hc
  | some s =>
    cases performance with
    | none => cases c <;> first | rfl | cases hc
    | some performance =>
      cases c with
      | load | reverseOrder => cases hc
      | openSheet sheet =>
        simp only [Player.reply, run_openSheet]
        split <;> rfl
      | _ => rfl

theorem of_after {c : Call} (hc : c.leavesShow) (p : Player) : SameShow (p.after c) p := by
  rcases Call.leavesShow_cases hc with hquery | ⟨sheet, rfl⟩
  · rw [after, asks_of_isQuery hquery]
    exact refl p
  · obtain ⟨settings, _ | s, _ | performance, active⟩ := p
    · exact refl _
    · exact refl _
    · exact refl _
    · simp only [after, run_openSheet]
      split <;> exact ⟨rfl, rfl, rfl⟩

theorem of_session {calls : List Call} (hcalls : ∀ c ∈ calls, c.leavesShow) (p : Player) :
    SameShow (p.session calls) p := by
  induction calls generalizing p with
  | nil => exact refl p
  | cons c calls ih =>
    rw [List.forall_mem_cons] at hcalls
    rw [session_cons]
    exact (ih hcalls.2 _).trans (of_after hcalls.1 p)

end SameShow

theorem active_of_openSheet {sheet : SheetId} {p : Player}
    (h : (p.reply (.openSheet sheet)).toOption.isSome) :
    (p.after (.openSheet sheet)).active = some sheet := by
  obtain ⟨settings, _ | s, _ | performance, active⟩ := p
  · cases h
  · cases h
  · cases h
  · by_cases hmem : sheet ∈ s.sheetIds
    · rw [after, run_openSheet, if_pos hmem]
    · rw [reply, run_openSheet, if_neg hmem] at h
      cases h

end SameShow

/-- A show comes back from the text that a player gives of it, whatever calls have led there. A
fresh player that loads the text answers like the player, and once the same sheet is open in both
they give the same replies to whatever calls follow. -/
theorem reload_invisible (settings : Settings) (calls : List Call) {s : Show}
    (hloaded : ((fresh settings).session calls).current = some s) (names : Names) :
    let p := (fresh settings).session calls
    ∃ text, p.reply .showText = .ok (.text text) ∧
      let q := (fresh settings).after (.load names (some text))
      (fresh settings).reply (.load names (some text)) =
        .ok (.beats (s.perform settings).total) ∧
      (∀ c : Call, c.leavesShow → q.reply c = p.reply c) ∧
      ∀ ps qs : List Call, (∀ c ∈ ps, c.leavesShow) → (∀ c ∈ qs, c.leavesShow) →
        (p.session ps).active = (q.session qs).active →
        ∀ more, (p.session ps).replies more = (q.session qs).replies more := by
  intro p
  obtain ⟨hsettings, hp⟩ := session_consistent (consistent_fresh settings) calls
  have hstored : s.Stored := session_stored (p := fresh settings) nofun calls s hloaded
  have hperformance : p.performance = some (s.perform settings) := by
    rw [hp.performance, hloaded, hsettings]
    rfl
  have htext : p.reply .showText = .ok (.text s.toText) := by
    have heq : p = ⟨settings, some s, some (s.perform settings), p.active⟩ :=
      SameShow.eq_of_active ⟨hsettings, hloaded, hperformance⟩ rfl
    rw [heq]
    rfl
  refine ⟨s.toText, htext, ?_⟩
  intro q
  have hrun := run_load_ok (hstored.reads_back names) (fresh settings)
  have hq : q = ⟨settings, some s, some (s.perform settings), s.sheetIds.head?⟩ :=
    congrArg Prod.snd hrun
  have hsame : SameShow p q := by
    rw [hq]
    exact ⟨hsettings, hloaded, hperformance⟩
  refine ⟨congrArg Prod.fst hrun, fun c hc => (hsame.reply hc).symm, ?_⟩
  intro ps qs hps hqs hactive more
  have hsessions : SameShow (p.session ps) (q.session qs) :=
    (SameShow.of_session hps p).trans (hsame.trans (SameShow.of_session hqs q).symm)
  rw [hsessions.eq_of_active hactive]

def reversingCalls : List Call :=
  [.load (.same "c") (some orderOnSecondSheetDocument), .openSheet ⟨5⟩, .reverseOrder ⟨5⟩ "plain" 0]

theorem reload_invisible_after_reversing : ∃ s text,
    let p := (fresh .standard).session reversingCalls
    let q := (fresh .standard).after (.load (.same "d") (some text))
    let more : List Call := [.issues, .reverseOrder ⟨5⟩ "plain" 0, .showText]
    p.current = some s ∧
      s.sheets.map (fun t => (t.list .plain).filterMap Continuity.order?) =
        [[], [[⟨"B"⟩, ⟨"A"⟩]]] ∧
      p.reply .showText = .ok (.text text) ∧ q.reply .issues = p.reply .issues ∧
      p.active = some ⟨5⟩ ∧ (q.after (.openSheet ⟨5⟩)).active = some ⟨5⟩ ∧
      p.replies more = (q.after (.openSheet ⟨5⟩)).replies more := by
  have hrun : ((fresh .standard).session reversingCalls).current.any (fun s =>
      s.sheets.map (fun t => (t.list .plain).filterMap Continuity.order?) ==
        [[], [[⟨"B"⟩, ⟨"A"⟩]]]) = true := by decide +kernel
  have hactive : ((fresh .standard).session reversingCalls).active = some ⟨5⟩ := by decide +kernel
  have hopens :
      (((fresh .standard).session reversingCalls).reply (.openSheet ⟨5⟩)).toOption.isSome := by
    decide +kernel
  obtain ⟨s, hs, horders⟩ := (Option.any_eq_true _ _).mp hrun
  obtain ⟨text, htext, -, hreplies, hmore⟩ :=
    reload_invisible .standard reversingCalls hs (.same "d")
  have hopened : (((fresh .standard).after (.load (.same "d") (some text))).after
      (.openSheet ⟨5⟩)).active = some ⟨5⟩ := by
    refine active_of_openSheet ?_
    rw [hreplies _ rfl]
    exact hopens
  have hsame := hmore [] [.openSheet ⟨5⟩] nofun (List.forall_mem_singleton.mpr rfl)
  rw [session_nil, session_cons, session_nil] at hsame
  exact ⟨s, text, hs, eq_of_beq horders, htext, hreplies _ rfl, hactive, hopened,
    hsame (hactive.trans hopened.symm) _⟩

end MarchingDrill.Player
