import MarchingDrill.Player
import MarchingDrill.Proofs.Show.Edits

/-! Sessions of a player: whatever calls it has taken, its performance is that of its show, and the
sheet that is open is one of the show's. -/

namespace MarchingDrill.Player

def Call.isQuery : Call → Bool
  | .load .. | .openSheet .. | .reverseOrder .. => false
  | _ => true

def session (p : Player) (calls : List Call) : Player := calls.foldl after p

/-- How a call that is not refused can change a player. -/
inductive Next (p : Player) : Player → Prop
  | load {names : Names} {doc : String} {s : Show} (read : Show.ofText names doc = .ok s) :
      Next p ⟨p.settings, some s, some (s.perform p.settings), s.sheetIds.head?⟩
  | openSheet {s : Show} {sheet : SheetId} (current : p.current = some s)
      (mem : sheet ∈ s.sheetIds) : Next p { p with active := some sheet }
  | reverseOrder {s s' : Show} {edit : OrderEdit} {active : SheetId}
      (current : p.current = some s) (opened : p.active = some active)
      (edited : s.editOrder edit active List.reverse = .ok s') :
      Next p ⟨p.settings, some s', some (s'.perform p.settings), p.active⟩

def Atomic (c : Call) (p : Player) : Prop :=
  p.after c = p ∨ (∃ a, p.reply c = .ok a) ∧ p.Next (p.after c)

/-- What holds between the fields of a player after any calls. -/
structure Consistent (p : Player) : Prop where
  performance : p.performance = p.current.map (·.perform p.settings)
  active : p.active = none ↔ p.current = none ∨ ∃ s, p.current = some s ∧ s.sheets = []
  opened : ∀ sheet, p.active = some sheet → ∃ s, p.current = some s ∧ sheet ∈ s.sheetIds

theorem run_loaded_bind {α : Type} (f : Show × Performance → Act α) (settings : Settings)
    (s : Show) (performance : Performance) (active : Option SheetId) :
    (loaded >>= f).run.run ⟨settings, some s, some performance, active⟩ =
      (f (s, performance)).run.run ⟨settings, some s, some performance, active⟩ := rfl

theorem run_get_bind {α : Type} (f : Player → Act α) (p : Player) :
    ((get : Act Player) >>= f).run.run p = (f p).run.run p := rfl

theorem ofExcept_ok_bind {ε α β : Type} (g : ε → PlayerFault) (a : α) (f : α → Act β) :
    (ofExcept ((Except.ok a : Except ε α).mapError g) >>= f) = f a := rfl

def Asks {α : Type} (act : Act α) : Prop := ∀ p, (act.run.run p).2 = p

theorem asks_of_loaded {α : Type} (f : Show × Performance → α) :
    Asks (do return f (← loaded)) := by
  rintro ⟨settings, _ | s, _ | performance, active⟩ <;> rfl

theorem Asks.map {α β : Type} {act : Act α} (h : Asks act) (f : α → β) : Asks (f <$> act) := by
  intro p
  rw [ExceptT.run_map, StateT.run_map]
  exact h p

theorem asks_of_isQuery {c : Call} (hc : c.isQuery) : Asks (call c) := by
  cases c with
  | load | openSheet | reverseOrder => cases hc
  | total => exact (asks_of_loaded _).map _
  | sheets => exact (asks_of_loaded _).map _
  | poseAt => exact (asks_of_loaded _).map _
  | posesAt => exact (asks_of_loaded _).map _
  | captions => exact (asks_of_loaded _).map _
  | commands => exact (asks_of_loaded _).map _
  | issues => exact (asks_of_loaded _).map _
  | clashes => exact (asks_of_loaded _).map _
  | showText => exact (asks_of_loaded _).map _

theorem Atomic.of_run {c : Call} {a : Answer} {q : Player}
    (hrun : (call c).run.run p = (.ok a, q)) (hnext : p.Next q) : Atomic c p := by
  refine .inr ⟨⟨a, congrArg Prod.fst hrun⟩, ?_⟩
  rw [after, hrun]
  exact hnext

theorem run_load_error {names : Names} {doc : String} {f : ShowFault}
    (hread : Show.ofText names doc = .error f) (p : Player) :
    (call (.load names (some doc))).run.run p = (.error (.loading f), p) := by
  simp only [call, load, hread]
  rfl

theorem run_load_ok {names : Names} {doc : String} {s : Show}
    (hread : Show.ofText names doc = .ok s) (p : Player) :
    (call (.load names (some doc))).run.run p = (.ok (.beats (s.perform p.settings).total),
      ⟨p.settings, some s, some (s.perform p.settings), s.sheetIds.head?⟩) := by
  simp only [call, load, hread]
  rfl

theorem run_openSheet (sheet : SheetId) (settings : Settings) (s : Show)
    (performance : Performance) (active : Option SheetId) :
    (call (.openSheet sheet)).run.run ⟨settings, some s, some performance, active⟩ =
      if sheet ∈ s.sheetIds then
        (.ok .done, ⟨settings, some s, some performance, some sheet⟩)
      else (.error (.unknownSheet sheet), ⟨settings, some s, some performance, active⟩) := by
  have hmem : sheet ∈ s.sheetIds ↔ (s.sheet? sheet).isSome := by
    simp [Show.sheetIds, Show.sheet?]
  cases hsheet : s.sheet? sheet with
  | none =>
    rw [if_neg (by simp [hmem, hsheet])]
    simp only [call, openSheet, bind_assoc, run_loaded_bind, hsheet]
    rfl
  | some t =>
    rw [if_pos (by simp [hmem, hsheet])]
    simp only [call, openSheet, bind_assoc, run_loaded_bind, hsheet]
    rfl

theorem atomic_load (names : Names) (doc : Option String) (p : Player) :
    Atomic (.load names doc) p := by
  cases doc with
  | none => exact .inl rfl
  | some doc =>
    cases hread : Show.ofText names doc with
    | error f => exact .inl (congrArg Prod.snd (run_load_error hread p))
    | ok s => exact .of_run (run_load_ok hread p) (.load hread)

theorem atomic_openSheet (sheet : SheetId) (p : Player) : Atomic (.openSheet sheet) p := by
  obtain ⟨settings, _ | s, _ | performance, active⟩ := p
  · exact .inl rfl
  · exact .inl rfl
  · exact .inl rfl
  · have hrun := run_openSheet sheet settings s performance active
    by_cases hmem : sheet ∈ s.sheetIds
    · rw [if_pos hmem] at hrun
      exact .of_run hrun (.openSheet rfl hmem)
    · rw [if_neg hmem] at hrun
      exact .inl (congrArg Prod.snd hrun)

theorem atomic_reverseOrder (sheet : SheetId) (symbol : String) (index : Nat) (p : Player) :
    Atomic (.reverseOrder sheet symbol index) p := by
  obtain ⟨settings, current, performance, active⟩ := p
  cases hsymbol : Symbol.parse symbol with
  | error f =>
    left
    simp only [after, call, reverseOrder, hsymbol]
    rfl
  | ok symbol =>
    cases active with
    | none =>
      left
      simp only [after, call, reverseOrder, hsymbol]
      rfl
    | some active =>
      cases current with
      | none =>
        left
        simp only [after, call, reverseOrder, hsymbol]
        rfl
      | some s =>
        cases hedit : s.editOrder ⟨sheet, symbol, index⟩ active List.reverse with
        | error f =>
          left
          simp only [after, call, reverseOrder, hsymbol, bind_assoc, ofExcept_ok_bind,
            run_get_bind, hedit]
          rfl
        | ok s' =>
          refine .of_run (a := .done) ?_ (.reverseOrder rfl rfl hedit)
          simp only [call, reverseOrder, hsymbol, bind_assoc, ofExcept_ok_bind, run_get_bind,
            hedit]
          rfl

theorem atomic (c : Call) (p : Player) : Atomic c p := by
  cases hc : c.isQuery with
  | true => exact .inl (asks_of_isQuery hc p)
  | false =>
    cases c with
    | load names doc => exact atomic_load names doc p
    | openSheet sheet => exact atomic_openSheet sheet p
    | reverseOrder sheet symbol index => exact atomic_reverseOrder sheet symbol index p
    | _ => cases hc

theorem after_of_error {p : Player} {c : Call} {f : PlayerFault} (h : p.reply c = .error f) :
    p.after c = p := by
  obtain hsame | ⟨⟨a, ha⟩, -⟩ := atomic c p
  · exact hsame
  · rw [ha] at h
    cases h

section Runs

variable {p q : Player}

theorem Next.settings_eq (h : p.Next q) : q.settings = p.settings := by
  cases h <;> rfl

theorem Next.consistent (h : p.Next q) (hp : p.Consistent) : q.Consistent := by
  cases h with
  | @load names doc s read =>
    refine ⟨rfl, ?_, ?_⟩
    · simp [Show.sheetIds]
    · intro sheet hsheet
      exact ⟨s, rfl, List.mem_of_mem_head? hsheet⟩
  | @openSheet s sheet current mem =>
    have hsheets : s.sheets ≠ [] := by
      rintro hnil
      rw [Show.sheetIds, hnil] at mem
      cases mem
    refine ⟨hp.performance, ?_, ?_⟩
    · simp [current, hsheets]
    · rintro sheet' ⟨⟩
      exact ⟨s, current, mem⟩
  | @reverseOrder s s' edit active current opened edited =>
    have hids := Show.sheetIds_editOrder edited
    have hsheets : s'.sheets = [] ↔ s.sheets = [] := by
      rw [← List.map_eq_nil_iff (f := Sheet.id), ← List.map_eq_nil_iff (f := Sheet.id)]
      exact iff_of_eq (congrArg (· = []) hids)
    refine ⟨rfl, ?_, ?_⟩
    · have hactive := hp.active
      simp only [current, Option.some.injEq, reduceCtorEq, false_or, exists_eq_left'] at hactive ⊢
      rw [hactive, hsheets]
    · intro sheet hsheet
      obtain ⟨u, hu, hmem⟩ := hp.opened sheet hsheet
      cases current.symm.trans hu
      exact ⟨s', rfl, hids ▸ hmem⟩

theorem consistent_fresh (settings : Settings) : (fresh settings).Consistent :=
  ⟨rfl, iff_of_true rfl (.inl rfl), nofun⟩

theorem session_consistent (hp : p.Consistent) (calls : List Call) :
    (p.session calls).settings = p.settings ∧ (p.session calls).Consistent := by
  induction calls generalizing p with
  | nil => exact ⟨rfl, hp⟩
  | cons c calls ih =>
    rw [session, List.foldl_cons, ← session]
    obtain hsame | ⟨-, hnext⟩ := atomic c p
    · rw [hsame]
      exact ih hp
    · rw [← hnext.settings_eq]
      exact ih (hnext.consistent hp)

end Runs

/-- After any calls the performance is that of the show with the player's settings, or both are
missing. A sheet is open if and only if there is a show with sheets, and it is one of them. Calls
that are refused and calls that only ask leave the player as it is. -/
theorem session_sound (settings : Settings) (calls : List Call) :
    let p := (fresh settings).session calls
    p.current.isSome = p.performance.isSome ∧
      p.performance = p.current.map (·.perform settings) ∧
      (p.active = none ↔ p.current = none ∨ ∃ s, p.current = some s ∧ s.sheets = []) ∧
      (∀ sheet, p.active = some sheet → ∃ s, p.current = some s ∧ sheet ∈ s.sheetIds) ∧
      (∀ c f, p.reply c = .error f → p.after c = p) ∧ ∀ c : Call, c.isQuery → p.after c = p := by
  intro p
  obtain ⟨hsettings, hp⟩ := session_consistent (consistent_fresh settings) calls
  have hperformance : p.performance = p.current.map (·.perform settings) := by
    rw [hp.performance, hsettings]
    rfl
  refine ⟨?_, hperformance, hp.active, hp.opened, fun c f => after_of_error, ?_⟩
  · rw [hperformance, Option.isSome_map]
  · intro c hc
    exact asks_of_isQuery hc p

/-- Two sheets, and an order on the second one. -/
def orderOnSecondSheetDocument : String :=
  "[\"u\",1,\"east\",[[\"A\"],[\"B\"]],[[3,\"\",4,null,null,\x7b\"A\":[0,0],\"B\":[4,0]\x7d]," ++
    "[5,\"\",4,null,null,\x7b\"A\":[0,0],\"B\":[4,0]\x7d,\x7b\"plain\":[" ++
    "\x7b\"type\":\"ftl\",\"order\":[\"A\",\"B\"]\x7d]\x7d]]]"

theorem session_sound_after_refused_load : ∃ s f,
    Show.ofText (.same "c") orderOnSecondSheetDocument = .ok s ∧
    let p := (fresh .standard).session
      [.load (.same "c") (some orderOnSecondSheetDocument), .openSheet ⟨5⟩]
    p.reply (.load (.same "c") (some "[3]")) = .error f ∧
      (p.after (.load (.same "c") (some "[3]"))).current = some s ∧
      (p.after (.load (.same "c") (some "[3]"))).performance = some (s.perform .standard) ∧
      (p.after (.load (.same "c") (some "[3]"))).active = some ⟨5⟩ := by
  have hrun : (Show.ofText (.same "c") orderOnSecondSheetDocument).toOption.any
      (fun s => decide (⟨5⟩ ∈ s.sheetIds)) = true := by decide +kernel
  obtain ⟨s, hread, hfacts⟩ := exists_ok_of_any hrun
  have hfault : (Show.ofText (.same "c") "[3]").toOption.isNone = true := by decide +kernel
  obtain ⟨f, hf⟩ : ∃ f, Show.ofText (.same "c") "[3]" = .error f := by
    cases h : Show.ofText (.same "c") "[3]" with
    | error f => exact ⟨f, rfl⟩
    | ok s =>
      rw [h] at hfault
      cases hfault
  refine ⟨s, .loading f, hread, ?_⟩
  intro p
  have hp : p = ⟨.standard, some s, some (s.perform .standard), some ⟨5⟩⟩ := by
    have hload := congrArg Prod.snd (run_load_ok hread (fresh .standard))
    have hopen := run_openSheet ⟨5⟩ .standard s (s.perform .standard) s.sheetIds.head?
    rw [if_pos (of_decide_eq_true hfacts)] at hopen
    exact (congrArg (after · (.openSheet ⟨5⟩)) hload).trans (congrArg Prod.snd hopen)
  have hrefused : p.reply (.load (.same "c") (some "[3]")) = .error (.loading f) :=
    congrArg Prod.fst (run_load_error hf p)
  obtain ⟨-, -, -, -, hkeep, -⟩ :=
    session_sound .standard [.load (.same "c") (some orderOnSecondSheetDocument), .openSheet ⟨5⟩]
  have hsame : p.after (.load (.same "c") (some "[3]")) = p := hkeep _ _ hrefused
  refine ⟨hrefused, ?_⟩
  rw [hsame, hp]
  exact ⟨rfl, rfl, rfl⟩

end MarchingDrill.Player
