import MarchingDrill.Proofs.Show.Acceptance

/-! Violations: a document of a show is accepted exactly when the show that it describes is valid,
and is refused for the first of all violations in the order of the document. -/

namespace MarchingDrill

inductive Continuity.Within (d : Continuity) : Continuity → Prop
  | self : Within d d
  | part {tag : Tag} {order : LineUp} {markTime : Bool} {parts : List Continuity} {c : Continuity}
      (mem : c ∈ parts) (within : Within d c) : Within d (.twoStep tag order markTime parts)

inductive Continuity.Filed (symbol : Symbol) : Continuity → Continuity → Prop
  | figure (tag : Tag) (f : Figure) :
      Filed symbol (.figure tag f) (.figure { tag with symbol := symbol } f)
  | twoStep (tag : Tag) (order : LineUp) (markTime : Bool) {parts parts' : List Continuity}
      (filed : List.Forall₂ (Filed symbol) parts parts') :
      Filed symbol (.twoStep tag order markTime parts)
        (.twoStep { tag with symbol := symbol } order markTime parts')

def PaceValid (beatsPerStep : Option UInt32) : Prop := ∀ n, beatsPerStep = some n → 1 ≤ n

structure Continuity.Valid (known : List DotId) (c : Continuity) : Prop where
  pace : PaceValid c.tag.beatsPerStep
  order : ∀ order, c.order? = some order → ∀ dot ∈ order, dot ∈ known

structure Sheet.Valid (known : List DotId) (t : Sheet) : Prop where
  pace : PaceValid t.beatsPerStep
  positions : ∀ dot ∈ t.positions.keys, dot ∈ known
  continuities : ∀ list ∈ t.continuities.values, ∀ c ∈ list, ∀ d : Continuity, d.Within c →
    d.Valid known

structure Show.Valid (s : Show) : Prop where
  pace : 1 ≤ s.beatsPerStep
  dots : s.dotIds.Nodup
  sheetIds : s.sheetIds.Nodup
  sheets : ∀ t ∈ s.sheets, t.Valid s.dotIds

structure Sheet.Filed (t u : Sheet) : Prop where
  same : u = { t with continuities := u.continuities }
  filed : List.Forall₂ (fun e e' => e'.1 = e.1 ∧ List.Forall₂ (Continuity.Filed e.1) e.2 e'.2)
    t.continuities.entries u.continuities.entries

/-- The second show is the first one with all continuities filed and the numbers of its sheets
taken. -/
structure Show.Filed (s u : Show) : Prop where
  same : u = { s with sheets := u.sheets, counter := s.sheetIds.foldl SheetCounter.skip .start }
  filed : List.Forall₂ Sheet.Filed s.sheets u.sheets

/-- What is found of the elements of a list, each of them judged by those before it. -/
def findings {α β : Type} (f : List α → α → List β) (as : List α) : List β :=
  as.zipIdx.flatMap fun (a, i) => f (as.take i) a

def paceViolations (beatsPerStep : Option UInt32) : List ShowFault :=
  (beatsPerStep.toList.filter (· = 0)).map .invalidBeatsPerStep

def Continuity.violations (known : List DotId) (sheet : SheetId) (c : Continuity) :
    List ShowFault :=
  ((c.order?.getD []).filter (· ∉ known)).map (.unknownDot · (.order c.label sheet)) ++
    paceViolations c.tag.beatsPerStep

def Sheet.violations (known : List DotId) (t : Sheet) : List ShowFault :=
  paceViolations t.beatsPerStep ++
  ((t.positions.keys.filter (· ∉ known)).map (.unknownDot · (.positions t.id)) ++
  (t.allContinuities.flatMap Continuity.walk).flatMap (·.violations known t.id))

/-- All that is wrong with a show, in the order of its document. -/
def Show.violations (s : Show) : List ShowFault :=
  paceViolations (some s.beatsPerStep) ++
  (findings (fun before dot => if dot ∈ before then [.duplicateDot dot] else []) s.dotIds ++
  findings (fun before t =>
    (if t.id ∈ before.map Sheet.id then [.duplicateSheet t.id] else []) ++
      t.violations s.dotIds) s.sheets)

section Findings

variable {α β : Type} {f : List α → α → List β}

theorem findings_cons (a : α) (as : List α) :
    findings f (a :: as) = f [] a ++ findings (fun before => f (a :: before)) as := by
  simp only [findings, List.zipIdx_cons, List.flatMap_cons, List.take_zero, List.zipIdx_succ,
    List.flatMap_map, List.take_succ_cons]

theorem findings_map {γ : Type} (g : γ → α) (cs : List γ) :
    findings f (cs.map g) = findings (fun before c => f (before.map g) (g c)) cs := by
  simp only [findings, List.zipIdx_map, List.flatMap_map, List.map_take, Prod.map_fst,
    Prod.map_snd, id_eq]

theorem firstRepeat?_eq_head? [DecidableEq α] (seen as : List α) :
    firstRepeat? seen as =
      (findings (fun before a => if a ∈ seen ∨ a ∈ before then [a] else []) as).head? := by
  -- `seen` grows by what the search has gone past
  induction as generalizing seen with
  | nil => rfl
  | cons a as ih =>
    rw [firstRepeat?, findings_cons]
    by_cases ha : a ∈ seen
    · simp [ha]
    · simp only [ha, if_false, List.not_mem_nil, or_false, List.nil_append, ih,
        List.mem_cons, or_left_comm, or_assoc]

end Findings

section Pace

variable (beatsPerStep : Option UInt32)

theorem paceFault?_eq_head? : paceFault? beatsPerStep = (paceViolations beatsPerStep).head? := by
  unfold paceFault? paceViolations
  split
  · rfl
  · next h =>
    cases beatsPerStep with
    | none => rfl
    | some n => simp [show n ≠ 0 by rintro rfl; exact h rfl]

theorem paceFault?_eq_none_iff : paceFault? beatsPerStep = none ↔ PaceValid beatsPerStep := by
  cases beatsPerStep with
  | none => simp [paceFault?, PaceValid]
  | some n =>
    have hzero : n = 0 ↔ ¬1 ≤ n := by
      rw [← UInt32.toNat_inj, UInt32.le_iff_toNat_le, UInt32.toNat_zero, UInt32.toNat_one]
      omega
    have hnone : paceFault? (some n) = none ↔ ¬n = 0 := by
      simp [paceFault?_eq_head?, paceViolations]
    rw [hnone, hzero, not_not]
    simp only [PaceValid, Option.some.injEq, forall_eq']

end Pace

namespace Continuity

mutual

theorem mem_walk_iff {d : Continuity} : ∀ {c : Continuity}, d ∈ c.walk ↔ d.Within c
  | .figure tag f => by
    rw [walk, List.mem_singleton]
    constructor
    · rintro rfl
      exact .self
    · rintro ⟨⟩
      rfl
  | .twoStep tag order markTime parts => by
    rw [walk, List.mem_cons, mem_walkAll_iff]
    constructor
    · rintro (rfl | ⟨c, hc, hd⟩)
      · exact .self
      · exact .part hc hd
    · rintro (_ | ⟨hc, hd⟩)
      · exact .inl rfl
      · exact .inr ⟨_, hc, hd⟩

theorem mem_walkAll_iff {d : Continuity} :
    ∀ {cs : List Continuity}, d ∈ walkAll cs ↔ ∃ c ∈ cs, d.Within c
  | [] => by simp [walkAll]
  | c :: cs => by
    rw [walkAll, List.mem_append, mem_walk_iff, mem_walkAll_iff]
    simp only [List.mem_cons, exists_eq_or_imp]

end

mutual

theorem retag_filed (s : Symbol) : ∀ c : Continuity, c.Filed s (retag s c)
  | .figure tag f => .figure tag f
  | .twoStep tag order markTime parts => .twoStep tag order markTime (retagAll_filed s parts)

theorem retagAll_filed (s : Symbol) :
    ∀ cs : List Continuity, List.Forall₂ (Filed s) cs (retagAll s cs)
  | [] => .nil
  | c :: cs => .cons (retag_filed s c) (retagAll_filed s cs)

end

mutual

theorem walk_retag (s : Symbol) : ∀ c : Continuity, (retag s c).walk = c.walk.map (retag s)
  | .figure tag f => rfl
  | .twoStep tag order markTime parts => by
    rw [walk, List.map_cons, ← walkAll_retagAll, retag, walk]

theorem walkAll_retagAll (s : Symbol) :
    ∀ cs : List Continuity, walkAll (retagAll s cs) = (walkAll cs).map (retag s)
  | [] => rfl
  | c :: cs => by
    rw [retagAll, walkAll, walkAll, walk_retag, walkAll_retagAll, List.map_append]

end

theorem walkAll_eq_flatMap : ∀ cs : List Continuity, walkAll cs = cs.flatMap walk
  | [] => rfl
  | c :: cs => by rw [walkAll, walkAll_eq_flatMap, List.flatMap_cons]

section Checks

variable (known : List DotId) (sheet : SheetId) (c : Continuity)

theorem violations_retag (s : Symbol) :
    (retag s c).violations known sheet = c.violations known sheet := by
  cases c <;> rfl

theorem violations_retagAll (s : Symbol) (cs : List Continuity) :
    (retagAll s cs).flatMap (fun c => c.walk.flatMap (·.violations known sheet)) =
      cs.flatMap fun c => c.walk.flatMap (·.violations known sheet) := by
  rw [← List.flatMap_assoc, ← List.flatMap_assoc, ← walkAll_eq_flatMap, ← walkAll_eq_flatMap,
    walkAll_retagAll, List.flatMap_map]
  simp only [violations_retag]

theorem ownFault?_eq_head? : c.ownFault? known sheet = (c.violations known sheet).head? := by
  rw [ownFault?, violations, List.head?_append, List.head?_map, List.head?_filter,
    paceFault?_eq_head?]
  cases (c.order?.getD []).find? fun x => decide (x ∉ known) <;> rfl

theorem ownFault?_eq_none_iff : c.ownFault? known sheet = none ↔ c.Valid known := by
  have horder : (c.order?.getD []).find? (· ∉ known) = none ↔
      ∀ order, c.order? = some order → ∀ dot ∈ order, dot ∈ known := by
    cases c.order? with
    | none => simp
    | some order => simp
  rw [ownFault?_eq_head?, violations, List.head?_append, List.head?_map, List.head?_filter,
    Option.or_eq_none_iff, Option.map_eq_none_iff, horder, ← paceFault?_eq_head?,
    paceFault?_eq_none_iff]
  exact ⟨fun ⟨horder, hpace⟩ => ⟨hpace, horder⟩, fun h => ⟨h.order, h.pace⟩⟩

end Checks

end Continuity

namespace Sheet

variable (known : List DotId) (t : Sheet)

theorem fault?_eq_head? : t.fault? known = (t.violations known).head? := by
  rw [fault?, violations, List.head?_append, List.head?_append, List.head?_map,
    List.head?_filter, List.head?_flatMap, ← paceFault?_eq_head?]
  simp only [Continuity.ownFault?_eq_head?]

theorem fault?_eq_none_iff : t.fault? known = none ↔ t.Valid known := by
  have hpositions : t.positions.keys.find? (· ∉ known) = none ↔
      ∀ dot ∈ t.positions.keys, dot ∈ known := by simp
  have hcontinuities : (t.allContinuities.flatMap Continuity.walk).findSome?
        (·.ownFault? known t.id) = none ↔
      ∀ list ∈ t.continuities.values, ∀ c ∈ list, ∀ d : Continuity, d.Within c →
        d.Valid known := by
    simp only [List.findSome?_eq_none_iff, Continuity.ownFault?_eq_none_iff, allContinuities,
      List.mem_flatMap, List.mem_flatten, Continuity.mem_walk_iff]
    exact ⟨fun h list hl c hc d hd => h d ⟨c, ⟨list, hl, hc⟩, hd⟩,
      fun h d ⟨c, ⟨list, hl, hc⟩, hd⟩ => h list hl c hc d hd⟩
  rw [fault?, Option.or_eq_none_iff, Option.or_eq_none_iff, Option.map_eq_none_iff,
    paceFault?_eq_none_iff, hpositions, hcontinuities]
  exact ⟨fun ⟨hpace, hpos, hcon⟩ => ⟨hpace, hpos, hcon⟩,
    fun h => ⟨h.pace, h.positions, h.continuities⟩⟩

theorem violations_retagged : (Show.retagged t).violations known = t.violations known := by
  have hentries : ((Show.retagged t).allContinuities.flatMap Continuity.walk).flatMap
        (·.violations known t.id) =
      (t.allContinuities.flatMap Continuity.walk).flatMap (·.violations known t.id) := by
    simp only [allContinuities, OrderedMap.values, Show.retagged, OrderedMap.map, List.map_map,
      ← List.flatMap_def, List.flatMap_assoc]
    apply List.flatMap_congr
    intro e _
    exact Continuity.violations_retagAll known t.id e.1 e.2
  rw [violations, violations]
  exact congrArg (fun l => _ ++ (_ ++ l)) hentries

theorem retagged_filed : t.Filed (Show.retagged t) := by
  refine ⟨rfl, List.forall₂_map_right_iff.mpr (List.forall₂_same.mpr ?_)⟩
  intro e _
  exact ⟨rfl, Continuity.retagAll_filed e.1 e.2⟩

end Sheet

theorem sheetsFault?_eq_head? (known : List DotId) (seen : List SheetId) (ts : List Sheet) :
    sheetsFault? known seen ts =
      (findings (fun before t =>
        (if t.id ∈ seen ∨ t.id ∈ before.map Sheet.id then [.duplicateSheet t.id] else []) ++
          t.violations known) ts).head? := by
  induction ts generalizing seen with
  | nil => rfl
  | cons t ts ih =>
    rw [sheetsFault?, findings_cons, List.head?_append, List.head?_append]
    by_cases ht : t.id ∈ seen
    · simp [ht]
    · simp only [ht, if_false, List.map_nil, List.not_mem_nil, or_false, List.head?_nil,
        Option.none_or, ih, Sheet.fault?_eq_head?, List.map_cons, List.mem_cons, or_left_comm,
        or_assoc]

theorem sheetsFault?_eq_none_iff (known : List DotId) (seen : List SheetId) (ts : List Sheet) :
    sheetsFault? known seen ts = none ↔
      firstRepeat? seen (ts.map Sheet.id) = none ∧ ∀ t ∈ ts, t.Valid known := by
  induction ts generalizing seen with
  | nil => simp [sheetsFault?, firstRepeat?]
  | cons t ts ih =>
    rw [sheetsFault?, List.map_cons, firstRepeat?, List.forall_mem_cons]
    by_cases ht : t.id ∈ seen
    · simp [ht]
    · rw [if_neg ht, if_neg ht, Option.or_eq_none_iff, ih, Sheet.fault?_eq_none_iff]
      exact and_left_comm

namespace Show

variable (s : Show)

theorem fault?_eq_head? : s.fault? = s.violations.head? := by
  have hdots : (findings (fun before dot =>
        if dot ∈ before then [ShowFault.duplicateDot dot] else []) s.dotIds).head? =
      (firstRepeat? [] s.dotIds).map .duplicateDot := by
    rw [firstRepeat?_eq_head?, ← List.head?_map, findings, findings, List.map_flatMap]
    simp only [List.not_mem_nil, false_or, apply_ite (List.map ShowFault.duplicateDot),
      List.map_cons, List.map_nil]
  rw [fault?, violations, List.head?_append, List.head?_append, hdots, ← paceFault?_eq_head?,
    sheetsFault?_eq_head?]
  simp only [List.not_mem_nil, false_or]

theorem fault?_eq_none_iff : s.fault? = none ↔ s.Valid := by
  have hpace : PaceValid (some s.beatsPerStep) ↔ 1 ≤ s.beatsPerStep := by simp [PaceValid]
  rw [fault?, Option.or_eq_none_iff, Option.or_eq_none_iff, Option.map_eq_none_iff,
    paceFault?_eq_none_iff, firstRepeat?_eq_none_iff, sheetsFault?_eq_none_iff,
    firstRepeat?_eq_none_iff, hpace]
  constructor
  · rintro ⟨hpace, ⟨hdots, -⟩, ⟨hids, -⟩, hsheets⟩
    exact ⟨hpace, hdots, hids, hsheets⟩
  · intro h
    exact ⟨h.pace, ⟨h.dots, fun _ _ => List.not_mem_nil⟩,
      ⟨h.sheetIds, fun _ _ => List.not_mem_nil⟩, h.sheets⟩

theorem violations_normalized : s.normalized.violations = s.violations := by
  have hid : ∀ t, (retagged t).id = t.id := fun _ => rfl
  have hids : s.normalized.dotIds = s.dotIds := rfl
  have hsheets : s.normalized.sheets = s.sheets.map retagged := rfl
  rw [violations, hids, hsheets, findings_map]
  simp only [List.map_map, Function.comp_def, hid, Sheet.violations_retagged]
  rfl

theorem normalized_filed : s.Filed s.normalized :=
  ⟨rfl, List.forall₂_map_right_iff.mpr
    (List.forall₂_same.mpr fun t _ => t.retagged_filed)⟩

theorem ofText_of_decoded {s : Show} {names : Names} {doc : String}
    (hdecoded : (Json.ofText? doc).bind (ofJson? names) = some s) :
    ofText names doc =
      s.violations.head?.elim (.ok s.normalized) .error := by
  have hfault : s.normalized.fault? = s.violations.head? := by
    rw [fault?_eq_head?, violations_normalized]
  rw [ofText, hdecoded]
  simp only [validate, hfault]
  cases s.violations.head? <;> rfl

/-- A document that describes a show is accepted if and only if the show is valid. It is then read
as that show, with its continuities filed, and otherwise refused for the first violation. -/
theorem accepted_iff_valid {s : Show} {names : Names} {doc : String}
    (hdecoded : (Json.ofText? doc).bind (ofJson? names) = some s) :
    ((∃ t, ofText names doc = .ok t) ↔ s.Valid) ∧
      (∀ t, ofText names doc = .ok t → s.Filed t) ∧
      ∀ fault, ofText names doc = .error fault ↔ s.violations.head? = some fault := by
  have hvalid : s.Valid ↔ s.violations.head? = none := by
    rw [← fault?_eq_none_iff, fault?_eq_head?]
  rw [hvalid, ofText_of_decoded hdecoded]
  cases s.violations.head? with
  | none =>
    refine ⟨iff_of_true ⟨_, rfl⟩ rfl, ?_, ?_⟩
    · intro t ht
      cases ht
      exact s.normalized_filed
    · intro fault
      exact iff_of_false nofun nofun
  | some first =>
    refine ⟨iff_of_false nofun nofun, nofun, ?_⟩
    intro fault
    exact ⟨fun h => by cases h; rfl, fun h => by cases h; rfl⟩

/-- A two-step within a two-step. The inner one has no pace and its order names a dot that the show
does not have. -/
def faultyDocument : String :=
  "[\"u\",1,\"east\",[[\"A\"]],[[7,\"\",4,null,null,\x7b\"A\":[0,0]\x7d,\x7b\"plain\":[" ++
    "\x7b\"type\":\"two\",\"order\":[\"A\"],\"continuities\":[" ++
    "\x7b\"type\":\"two\",\"beatsPerStep\":0,\"order\":[\"A\",\"Z\"]\x7d]\x7d]\x7d]]]"

theorem refused_for_unknown_dot : ∃ s,
    (Json.ofText? faultyDocument).bind (ofJson? (.same "c")) = some s ∧
    s.violations = [.unknownDot ⟨"Z"⟩ (.order "two" ⟨7⟩), .invalidBeatsPerStep 0] ∧
    ofText (.same "c") faultyDocument = .error (.unknownDot ⟨"Z"⟩ (.order "two" ⟨7⟩)) := by
  have hrun : ((Json.ofText? faultyDocument).bind (ofJson? (.same "c"))).any (fun s => decide
      (s.violations = [.unknownDot ⟨"Z"⟩ (.order "two" ⟨7⟩), .invalidBeatsPerStep 0])) = true := by
    decide +kernel
  obtain ⟨s, hdecoded, hfacts⟩ := (Option.any_eq_true ..).mp hrun
  have hfound := of_decide_eq_true hfacts
  refine ⟨s, hdecoded, hfound, ?_⟩
  rw [(accepted_iff_valid hdecoded).2.2, hfound]
  rfl

end Show

end MarchingDrill
