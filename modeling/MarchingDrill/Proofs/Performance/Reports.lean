import MarchingDrill.Proofs.Performance.Chaining

/-! Reports: the issues of a performance are, dot by dot and sheet by sheet, exactly the ones that
are due there, in a fixed order and none of them twice. -/

namespace MarchingDrill

def IssueKind.rank : IssueKind → Nat
  | notOnSheet => 0
  | fault _ => 1
  | unusedBeats _ => 2
  | offFormation _ _ => 3

def Performance.kindsFor (p : Performance) (dot : DotId) (sheet : SheetId) : List IssueKind :=
  ((p.issues.filter (·.dot = dot)).filter (·.sheet = sheet)).map Issue.kind

theorem filter_flatMap_of_key {α κ : Type} [DecidableEq κ] (key : α → κ) {f : κ → List α}
    {ks : List κ} (hkey : ∀ k ∈ ks, ∀ a ∈ f k, key a = k) (hnodup : ks.Nodup) {k : κ}
    (hk : k ∈ ks) : (ks.flatMap f).filter (key · = k) = f k := by
  induction ks with
  | nil => cases hk
  | cons first ks ih =>
    rw [List.forall_mem_cons] at hkey
    rw [List.nodup_cons] at hnodup
    rw [List.flatMap_cons, List.filter_append]
    rcases List.mem_cons.mp hk with rfl | hlater
    · have hrest : (ks.flatMap f).filter (key · = k) = [] := by
        rw [List.filter_eq_nil_iff]
        intro a ha
        obtain ⟨k', hk', ha⟩ := List.mem_flatMap.mp ha
        rw [decide_eq_true_eq, hkey.2 k' hk' a ha]
        rintro rfl
        exact hnodup.1 hk'
      rw [hrest, List.append_nil, List.filter_eq_self]
      exact fun a ha => decide_eq_true (hkey.1 a ha)
    · have hfirst : (f first).filter (key · = k) = [] := by
        rw [List.filter_eq_nil_iff]
        intro a ha
        rw [decide_eq_true_eq, hkey.1 a ha]
        rintro rfl
        exact hnodup.1 hlater
      rw [hfirst, List.nil_append, ih hkey.2 hnodup.2 hlater]

namespace Show

def run (s : Show) (dot : DotId) (t : Sheet) (spot : Spot) : Except Fault Passage :=
  Continuity.performAll dot (s.listFor t.id dot) (s.scene t.id) ⟨spot, t.beats⟩

/-- The issues that are due for a dot on a sheet, with the sheet `next` behind it. The dot starts
the sheet at a spot, if it does, and its commands there are the given ones. -/
inductive Due (s : Show) (settings : Settings) (dot : DotId) (t : Sheet) (next : Option Sheet)
    (commands : List Command) : Option Spot → IssueKind → Prop
  | notOnSheet {start : Option Spot} (missing : t.spot? dot = none) :
      Due s settings dot t next commands start .notOnSheet
  | fault {spot : Spot} {f : Fault} (failed : s.run dot t spot = .error f) :
      Due s settings dot t next commands (some spot) (.fault f)
  | unusedBeats {spot : Spot} {p : Passage} (ran : s.run dot t spot = .ok p)
      (left : p.cue.beats ≠ 0) (follows : next.isSome) :
      Due s settings dot t next commands (some spot) (.unusedBeats p.cue.beats)
  | offFormation {spot : Spot} {p : Passage} {u : Sheet} {expected : Spot}
      (ran : s.run dot t spot = .ok p) (checked : settings.checkFormation) (follows : next = some u)
      (placed : u.spot? dot = some expected)
      (apart : (destination spot commands).near expected settings.formationTolerance = false) :
      Due s settings dot t next commands (some spot)
        (.offFormation expected (destination spot commands))

/-- A list holds the kinds of the issues that are due, each of them once and in the order of the
kinds. -/
structure JustDue (s : Show) (settings : Settings) (dot : DotId) (t : Sheet) (next : Option Sheet)
    (commands : List Command) (start : Option Spot) (kinds : List IssueKind) : Prop where
  ordered : kinds.Pairwise fun a b => a.rank < b.rank
  mem_iff : ∀ kind, kind ∈ kinds ↔ s.Due settings dot t next commands start kind

/-- Spots from which a dot may start the sheets: the first one from its own spot, if it has one, and
every other one from where its continuities on the sheet before end, or else from its own spot. -/
structure StartsAlong (s : Show) (dot : DotId) (starts : List (Option Spot)) : Prop where
  first {t : Sheet} (ht : s.sheets[0]? = some t) : starts[0]? = some (t.spot? dot)
  next {i : Nat} {t u : Sheet} {start : Option Spot} (ht : s.sheets[i]? = some t)
    (hu : s.sheets[i + 1]? = some u) (hstart : starts[i]? = some start) : starts[i + 1]? = some
      ((start.bind fun spot => (s.run dot t spot).toOption.map fun r => r.cue.spot).or
        (u.spot? dot))

variable {s : Show} {settings : Settings} {dot : DotId}

theorem due_notOnSheet_iff {t : Sheet} {next : Option Sheet} {commands : List Command}
    {start : Option Spot} :
    s.Due settings dot t next commands start .notOnSheet ↔ t.spot? dot = none := by
  constructor
  · rintro ⟨missing⟩
    exact missing
  · exact .notOnSheet

section Sheet

variable {sheet : SheetId} {spot : Spot} {p : Passage}

theorem issues_performFrom_of_ok
    (h : Continuity.performAll dot (s.listFor sheet dot) (s.scene sheet)
      ⟨spot, s.sheetBeats sheet⟩ = .ok p) :
    (s.performFrom settings dot sheet spot).issues =
      (if p.cue.beats ≠ 0 ∧ (s.nextSheet? sheet).isSome then [.unusedBeats p.cue.beats] else []) ++
        (((s.nextSpot? sheet dot).filter fun expected => settings.checkFormation &&
          !p.cue.spot.near expected settings.formationTolerance).toList.map
            (.offFormation · p.cue.spot)) := by
  simp only [performFrom, h]
  cases s.nextSpot? sheet dot with
  | none => rfl
  | some expected =>
    rw [Option.filter_some, List.append_cancel_left_eq]
    dsimp only
    split <;> rfl

theorem issues_performSheet (before : Option Spot) :
    (s.performSheet settings dot before sheet).issues =
      (if (s.spot? sheet dot).isNone then [.notOnSheet] else []) ++
        (before.or (s.spot? sheet dot)).elim []
          fun spot => (s.performFrom settings dot sheet spot).issues := by
  dsimp only [performSheet]
  cases before.or (s.spot? sheet dot) with
  | none => exact (List.append_nil _).symm
  | some spot => rfl

variable (s settings dot sheet spot) in
theorem pairwise_rank_performFrom : ((s.performFrom settings dot sheet spot).issues.Pairwise
    fun a b => a.rank < b.rank) ∧
      ∀ kind ∈ (s.performFrom settings dot sheet spot).issues, 0 < kind.rank := by
  cases h : Continuity.performAll dot (s.listFor sheet dot) (s.scene sheet)
      ⟨spot, s.sheetBeats sheet⟩ with
  | error f =>
    rw [performFrom_of_error h]
    exact ⟨List.pairwise_singleton _ _, List.forall_mem_singleton.mpr Nat.one_pos⟩
  | ok p =>
    rw [issues_performFrom_of_ok h]
    cases (s.nextSpot? sheet dot).filter _ with
    | none => split <;> simp [IssueKind.rank]
    | some expected => split <;> simp [IssueKind.rank]

theorem pairwise_rank_performSheet (before : Option Spot) :
    (s.performSheet settings dot before sheet).issues.Pairwise fun a b => a.rank < b.rank := by
  rw [issues_performSheet]
  cases before.or (s.spot? sheet dot) with
  | none => split <;> simp
  | some spot =>
    obtain ⟨hpairwise, hpos⟩ := pairwise_rank_performFrom s settings dot sheet spot
    split
    · exact hpairwise.cons hpos
    · exact hpairwise

theorem destination_performFrom (settings : Settings)
    (h : Continuity.performAll dot (s.listFor sheet dot) (s.scene sheet)
      ⟨spot, s.sheetBeats sheet⟩ = .ok p) :
    destination spot (s.performFrom settings dot sheet spot).commands = p.cue.spot := by
  obtain ⟨issues, hclean, hresult⟩ := performFrom_of_ok settings h
  have hcarried : (s.performFrom settings dot sheet spot).carried = _ := carried_of_clean <| by
    rintro ⟨f, hf⟩
    rw [hresult] at hf
    exact hclean f hf
  rw [hresult] at hcarried ⊢
  exact (Option.some.inj hcarried).symm

end Sheet

section Member

variable {t : Sheet} {i : Nat}

theorem starts_zero (hnodup : s.sheetIds.Nodup) (ht : s.sheets[0]? = some t) :
    (s.starts settings dot none s.sheetIds)[0]? = some (t.spot? dot) := by
  rw [← spot?_of_mem hnodup (List.mem_of_getElem? ht)]
  have hid := getElem?_sheetIds ht
  cases hids : s.sheetIds with
  | nil =>
    rw [hids] at hid
    cases hid
  | cons first sheets =>
    rw [hids] at hid
    cases hid
    rfl

theorem run_eq (hnodup : s.sheetIds.Nodup) (ht : t ∈ s.sheets) (spot : Spot) :
    Continuity.performAll dot (s.listFor t.id dot) (s.scene t.id) ⟨spot, s.sheetBeats t.id⟩ =
      s.run dot t spot := by
  rw [run, sheetBeats_of_mem hnodup ht]

theorem carried_performSheet (hnodup : s.sheetIds.Nodup) (ht : t ∈ s.sheets)
    (before : Option Spot) : (s.performSheet settings dot before t.id).carried =
      (before.or (t.spot? dot)).bind fun spot =>
        (s.run dot t spot).toOption.map fun p => p.cue.spot := by
  rw [← spot?_of_mem hnodup ht]
  cases hstart : before.or (s.spot? t.id dot) with
  | none =>
    rw [performSheet_of_none hstart]
    rfl
  | some spot =>
    rw [(performSheet_of_some settings hstart).2.1, Option.bind_some]
    cases hrun : s.run dot t spot with
    | error f =>
      rw [performFrom_of_error ((run_eq hnodup ht spot).trans hrun)]
      rfl
    | ok p =>
      obtain ⟨issues, -, hresult⟩ :=
        performFrom_of_ok settings ((run_eq hnodup ht spot).trans hrun)
      rw [hresult]
      rfl

theorem mem_issues_performFrom_iff (hnodup : s.sheetIds.Nodup) (ht : s.sheets[i]? = some t)
    {spot : Spot} {kind : IssueKind} (hplaced : kind ≠ .notOnSheet) :
    kind ∈ (s.performFrom settings dot t.id spot).issues ↔
      s.Due settings dot t s.sheets[i + 1]? (s.performFrom settings dot t.id spot).commands
        (some spot) kind := by
  have hmem := List.mem_of_getElem? ht
  cases hrun : s.run dot t spot with
  | error f =>
    rw [performFrom_of_error ((run_eq hnodup hmem spot).trans hrun), List.mem_singleton]
    constructor
    · rintro rfl
      exact .fault hrun
    · intro h
      cases h with
      | notOnSheet => exact absurd rfl hplaced
      | fault failed =>
        cases failed.symm.trans hrun
        rfl
      | unusedBeats ran => cases ran.symm.trans hrun
      | offFormation ran => cases ran.symm.trans hrun
  | ok p =>
    have hperform := (run_eq hnodup hmem spot).trans hrun
    have hend := destination_performFrom settings hperform
    rw [issues_performFrom_of_ok hperform, nextSpot?_of_getElem? hnodup ht,
      nextSheet?_of_getElem? hnodup ht, List.mem_append, List.mem_map]
    constructor
    · rintro (hunused | ⟨expected, hexpected, rfl⟩)
      · split at hunused
        · next hleft =>
          cases List.mem_singleton.mp hunused
          exact .unusedBeats hrun hleft.1 hleft.2
        · cases hunused
      · rw [Option.mem_toList, Option.filter_eq_some_iff, Bool.and_eq_true,
          Bool.not_eq_true'] at hexpected
        obtain ⟨hspot, hcheck, happart⟩ := hexpected
        obtain ⟨u, hu, hspot⟩ := Option.bind_eq_some_iff.mp hspot
        rw [← hend] at happart ⊢
        exact .offFormation hrun hcheck hu hspot happart
    · intro h
      cases h with
      | notOnSheet => exact absurd rfl hplaced
      | fault failed => cases failed.symm.trans hrun
      | unusedBeats ran left follows =>
        cases ran.symm.trans hrun
        rw [if_pos ⟨left, follows⟩]
        exact .inl (List.mem_singleton_self _)
      | @offFormation _ _ u expected ran checked follows placed apart =>
        cases ran.symm.trans hrun
        rw [hend] at apart ⊢
        refine .inr ⟨expected, ?_, rfl⟩
        rw [Option.mem_toList, Option.filter_eq_some_iff, follows, Option.bind_some, checked, apart]
        exact ⟨placed, rfl⟩

theorem mem_issues_performSheet_iff (hnodup : s.sheetIds.Nodup) (ht : s.sheets[i]? = some t)
    (before : Option Spot) (kind : IssueKind) :
    kind ∈ (s.performSheet settings dot before t.id).issues ↔
      s.Due settings dot t s.sheets[i + 1]? (s.performSheet settings dot before t.id).commands
        (before.or (t.spot? dot)) kind := by
  have hown := spot?_of_mem hnodup (List.mem_of_getElem? ht) dot
  rw [issues_performSheet, List.mem_append, hown]
  by_cases hkind : kind = .notOnSheet
  · subst hkind
    have hlater : IssueKind.notOnSheet ∉ (before.or (t.spot? dot)).elim []
        fun spot => (s.performFrom settings dot t.id spot).issues := by
      cases before.or (t.spot? dot) with
      | none => exact List.not_mem_nil
      | some spot =>
        exact fun h => ((pairwise_rank_performFrom s settings dot t.id spot).2 _ h).ne rfl
    rw [or_iff_left hlater, due_notOnSheet_iff]
    cases t.spot? dot <;> simp
  · have hfirst : kind ∉ if (t.spot? dot).isNone then [IssueKind.notOnSheet] else [] := by
      split
      · exact fun h => hkind (List.mem_singleton.mp h)
      · exact List.not_mem_nil
    rw [or_iff_right hfirst]
    cases hstart : before.or (t.spot? dot) with
    | none =>
      refine iff_of_false List.not_mem_nil ?_
      rintro ⟨missing⟩
      exact hkind rfl
    | some spot =>
      rw [(performSheet_of_some settings (hown ▸ hstart)).1]
      exact mem_issues_performFrom_iff hnodup ht hkind

end Member

section Perform

theorem flatMap_filter_performSheets {sheets : List SheetId} (hnodup : sheets.Nodup)
    (carried : Option Spot) :
    (sheets.flatMap fun sheet =>
      (s.performSheets settings dot carried sheets).2.filter (·.sheet = sheet)) =
      (s.performSheets settings dot carried sheets).2 := by
  induction sheets generalizing carried with
  | nil => rfl
  | cons first sheets ih =>
    obtain ⟨hfirst, hnodup⟩ := List.nodup_cons.mp hnodup
    have hlater : ∀ sheet ∈ sheets,
        (s.performSheets settings dot carried (first :: sheets)).2.filter (·.sheet = sheet) =
          (s.performSheets settings dot (s.performSheet settings dot carried first).carried
            sheets).2.filter (·.sheet = sheet) := by
      intro sheet hsheet
      rw [filter_performSheets_cons settings dot carried hfirst, if_neg]
      rintro rfl
      exact hfirst hsheet
    rw [List.flatMap_cons, filter_performSheets_cons settings dot carried hfirst, if_pos rfl,
      List.flatMap_congr hlater, ih hnodup]
    rfl

theorem issuesFor_perform (hdots : s.dotIds.Nodup) (hdot : dot ∈ s.dotIds) :
    (s.perform settings).issues.filter (·.dot = dot) =
      (s.performSheets settings dot none s.sheetIds).2 := by
  rw [perform_issues]
  refine filter_flatMap_of_key Issue.dot ?_ hdots hdot
  intro other _ issue hissue
  exact (dot_sheet_of_mem_issues hissue).1

theorem kindsFor_perform (hdots : s.dotIds.Nodup) (hdot : dot ∈ s.dotIds) {place : Nat}
    {sheet : SheetId} {before : Option Spot}
    (v : s.Visit settings dot none s.sheetIds place sheet before) :
    (s.perform settings).kindsFor dot sheet =
      (s.performSheet settings dot before sheet).issues := by
  have hkind : Issue.kind ∘ Issue.report dot sheet = id := rfl
  rw [Performance.kindsFor, issuesFor_perform hdots hdot, v.report, List.map_map, hkind,
    List.map_id]

theorem pairwise_rank_kindsFor (settings : Settings) (hdots : s.dotIds.Nodup)
    (hsheets : s.sheetIds.Nodup) (hdot : dot ∈ s.dotIds) {sheet : SheetId}
    (hsheet : sheet ∈ s.sheetIds) :
    ((s.perform settings).kindsFor dot sheet).Pairwise fun a b => a.rank < b.rank := by
  obtain ⟨place, hplace⟩ := List.mem_iff_getElem?.mp hsheet
  obtain ⟨before, v⟩ := exists_visit settings dot hsheets none hplace
  rw [kindsFor_perform hdots hdot v]
  exact pairwise_rank_performSheet before

theorem issues_perform (settings : Settings) (hdots : s.dotIds.Nodup) (hsheets : s.sheetIds.Nodup) :
    (s.perform settings).issues = s.dotIds.flatMap fun dot => s.sheetIds.flatMap fun sheet =>
      ((s.perform settings).kindsFor dot sheet).map (Issue.report dot sheet) := by
  rw [perform_issues]
  refine List.flatMap_congr fun dot hdot => ?_
  rw [← flatMap_filter_performSheets hsheets]
  refine List.flatMap_congr fun sheet hsheet => ?_
  obtain ⟨place, hplace⟩ := List.mem_iff_getElem?.mp hsheet
  obtain ⟨before, v⟩ := exists_visit settings dot hsheets none hplace
  rw [kindsFor_perform hdots hdot v, v.report]

theorem nodup_flatMap_report {dots : List DotId} {sheets : List SheetId} (hdots : dots.Nodup)
    (hsheets : sheets.Nodup) {kinds : DotId → SheetId → List IssueKind}
    (hkinds : ∀ dot ∈ dots, ∀ sheet ∈ sheets, (kinds dot sheet).Nodup) :
    (dots.flatMap fun dot => sheets.flatMap fun sheet =>
      (kinds dot sheet).map (Issue.report dot sheet)).Nodup := by
  rw [List.nodup_flatMap]
  constructor
  · intro dot hdot
    rw [List.nodup_flatMap]
    constructor
    · intro sheet hsheet
      exact (hkinds dot hdot sheet hsheet).map fun _ _ h => congrArg Issue.kind h
    · refine hsheets.imp fun {first second} hne => ?_
      intro issue hfirst hsecond
      obtain ⟨_, -, rfl⟩ := List.mem_map.mp hfirst
      obtain ⟨_, -, heq⟩ := List.mem_map.mp hsecond
      exact hne (congrArg Issue.sheet heq).symm
  · refine hdots.imp fun {first second} hne => ?_
    intro issue hfirst hsecond
    obtain ⟨_, -, hfirst⟩ := List.mem_flatMap.mp hfirst
    obtain ⟨_, -, hsecond⟩ := List.mem_flatMap.mp hsecond
    obtain ⟨_, -, rfl⟩ := List.mem_map.mp hfirst
    obtain ⟨_, -, heq⟩ := List.mem_map.mp hsecond
    exact hne (congrArg Issue.dot heq).symm

end Perform

theorem startsAlong_starts (settings : Settings) (dot : DotId) (hsheets : s.sheetIds.Nodup) :
    s.StartsAlong dot (s.starts settings dot none s.sheetIds) where
  first ht := starts_zero hsheets ht
  next {i t u start} ht hu hstart := by
    have hmem := List.mem_of_getElem? ht
    obtain ⟨before, v⟩ := exists_visit settings dot hsheets none (getElem?_sheetIds ht)
    cases hstart.symm.trans v.start
    rw [v.goesOn u.id (getElem?_sheetIds hu), spot?_of_mem hsheets (List.mem_of_getElem? hu),
      spot?_of_mem hsheets hmem, carried_performSheet hsheets hmem]

/-- The issues of a performance are exactly the ones that are due. They stand in the order of the
dots, the sheets and the kinds, none of them twice, and only faults are errors. -/
theorem issues_exact {names : Names} {doc : String} {s : Show} (settings : Settings)
    (hread : ofText names doc = .ok s) :
    let p := s.perform settings
    (p.issues = s.dotIds.flatMap fun dot => s.sheetIds.flatMap fun sheet =>
      (p.kindsFor dot sheet).map (Issue.report dot sheet)) ∧
    (∀ dot ∈ s.dotIds, ∃ track, p.track? dot = some track ∧
      let starts := s.starts settings dot none s.sheetIds
      s.StartsAlong dot starts ∧
      ∀ (i : Nat) (t : Sheet), s.sheets[i]? = some t → ∃ start g, starts[i]? = some start ∧
        track.segments[i]? = some g ∧ g.sheet = t.id ∧
        s.JustDue settings dot t s.sheets[i + 1]? g.commands start (p.kindsFor dot t.id)) ∧
    p.issues.Nodup ∧
    ∀ issue ∈ p.issues, issue.severity = .error ↔ ∃ f, issue.kind = .fault f := by
  intro p
  have hvalid := validate_of_ofText hread
  have hdots := dotIds_nodup hvalid
  have hsheets := sheetIds_nodup hvalid
  have hissues : p.issues = _ := issues_perform settings hdots hsheets
  have hkinds : ∀ dot ∈ s.dotIds, ∀ sheet ∈ s.sheetIds,
      (p.kindsFor dot sheet).Pairwise fun a b => a.rank < b.rank :=
    fun dot hdot sheet hsheet => pairwise_rank_kindsFor settings hdots hsheets hdot hsheet
  refine ⟨hissues, ?_, ?_, ?_⟩
  · intro dot hdot
    refine ⟨_, track?_perform settings hdots hdot, startsAlong_starts settings dot hsheets, ?_⟩
    intro i t ht
    have hmem := List.mem_of_getElem? ht
    obtain ⟨before, v⟩ := exists_visit settings dot hsheets none (getElem?_sheetIds ht)
    refine ⟨_, _, v.start, by rw [Track.segments, List.getElem?_map, v.stay]; rfl, rfl,
      hkinds dot hdot _ (List.mem_map_of_mem hmem), fun kind => ?_⟩
    rw [kindsFor_perform hdots hdot v, spot?_of_mem hsheets hmem]
    exact mem_issues_performSheet_iff hsheets ht before kind
  · rw [hissues]
    refine nodup_flatMap_report hdots hsheets fun dot hdot sheet hsheet => ?_
    exact (hkinds dot hdot sheet hsheet).imp fun hlt heq => hlt.ne (congrArg IssueKind.rank heq)
  · intro issue hissue
    rw [hissues] at hissue
    obtain ⟨dot, -, hissue⟩ := List.mem_flatMap.mp hissue
    obtain ⟨sheet, -, hissue⟩ := List.mem_flatMap.mp hissue
    obtain ⟨kind, -, rfl⟩ := List.mem_map.mp hissue
    cases kind <;> simp [Issue.report, IssueKind.severity]

theorem issues_exact_on_fault : ∃ s, ofText (.same "c") faultThenStopDocument = .ok s ∧
    let p := s.perform .standard
    .notOnSheet ∈ p.kindsFor ⟨"B"⟩ ⟨0⟩ ∧ .notOnSheet ∉ p.kindsFor ⟨"A"⟩ ⟨0⟩ ∧
      .fault (.emptyOrder "ftl") ∈ p.kindsFor ⟨"A"⟩ ⟨0⟩ ∧ p.issues.Nodup := by
  have hrun : (ofText (.same "c") faultThenStopDocument).toOption.any (fun s => decide
      (s.dotIds = [⟨"A"⟩, ⟨"B"⟩] ∧ ∃ t ∈ s.sheets[0]?, t.id = ⟨0⟩ ∧ t.spot? ⟨"A"⟩ = some ⟨0, 0⟩ ∧
        t.spot? ⟨"B"⟩ = none ∧ s.run ⟨"A"⟩ t ⟨0, 0⟩ = .error (.emptyOrder "ftl"))) = true := by
    decide +kernel
  obtain ⟨s, hread, hfacts⟩ := exists_ok_of_any hrun
  obtain ⟨hdots, t, ht, hid, hspotA, hspotB, hfault⟩ := of_decide_eq_true hfacts
  obtain ⟨-, hkinds, hnodup, -⟩ := issues_exact .standard hread
  obtain ⟨_, -, hstarts, hsheetsA⟩ := hkinds ⟨"A"⟩ (hdots ▸ List.mem_cons_self)
  obtain ⟨_, -, -, hsheetsB⟩ := hkinds ⟨"B"⟩ (hdots ▸ List.mem_cons_of_mem _ List.mem_cons_self)
  obtain ⟨start, _, hstart, -, -, hdueA⟩ := hsheetsA 0 t ht
  obtain ⟨_, _, -, -, -, hdueB⟩ := hsheetsB 0 t ht
  obtain rfl : start = some ⟨0, 0⟩ := by
    rw [hstarts.first ht, hspotA] at hstart
    exact (Option.some.inj hstart).symm
  rw [hid] at hdueA hdueB
  refine ⟨s, hread, (hdueB.mem_iff _).mpr (.notOnSheet hspotB), ?_,
    (hdueA.mem_iff _).mpr (.fault hfault), hnodup⟩
  rw [hdueA.mem_iff, due_notOnSheet_iff, hspotA]
  exact Option.some_ne_none _

end Show

end MarchingDrill
