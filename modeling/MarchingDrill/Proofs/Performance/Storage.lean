import MarchingDrill.Performance.Document
import MarchingDrill.Proofs.Motion.Storage

/-! Storage of reports: what has been reported comes back in order from the text that is written for
it. The members of an issue and those of its kind stand side by side in one object, so that each
is read past the members of the other. -/

namespace MarchingDrill

open Json

theorem SheetId.ofJson?_toJson (s : SheetId) : ofJson? s.toJson = some s :=
  congrArg (Option.map SheetId.mk) (word32?_word32 s.number)

theorem Severity.ofName?_name (s : Severity) : ofName? s.name = some s := by
  cases s <;> rfl

namespace Fault

def Storable : Fault → Prop
  | nestedTooDeep limit => limit < UInt64.size
  | missingSpot .. | emptyOrder _ => True

theorem legible_toJson {f : Fault} (h : f.Storable) : f.toJson.legible := by
  cases f with
  | missingSpot dot sheet =>
    simp [toJson, legible_record_iff, DotId.toJson, SheetId.toJson, text, legible, legible_word32]
  | emptyOrder kind => simp [toJson, legible_record_iff, text, legible]
  | nestedTooDeep limit =>
    have hlimit : (count limit).legible := legible_count h
    simp [toJson, legible_record_iff, hlimit]

theorem depth_toJson (f : Fault) : f.toJson.depth ≤ 2 := by
  cases f <;> simp [toJson, depth_record_le_iff, DotId.toJson, SheetId.toJson, text, word32, count,
    depth]

theorem ofJson?_toJson {f : Fault} (h : f.Storable) : ofJson? f.toJson = some f := by
  cases f with
  | missingSpot dot sheet =>
    have hfields : (record [("dot", dot.toJson), ("sheet", sheet.toJson)]).fields?
        ["dot", "sheet"] = some [("dot", dot.toJson), ("sheet", sheet.toJson)] :=
      fields?_record_of_sublist (.refl _) (by decide)
    have hdot : DotId.ofJson? dot.toJson = some dot := rfl
    rw [toJson, record, List.map_singleton, ofJson?, hfields]
    simp [Fields.required, List.lookup, hdot, sheet.ofJson?_toJson]
  | emptyOrder kind => rfl
  | nestedTooDeep limit =>
    have hfields : (record [("limit", count limit)]).fields? ["limit"] =
        some [("limit", count limit)] := fields?_record_of_sublist (.refl _) (by decide)
    have hlimit : (count limit).countBelow? UInt64.size = some limit :=
      if_pos (decide_eq_true (p := limit < UInt64.size) h)
    rw [toJson, record, List.map_singleton, ofJson?, hfields]
    simp [Fields.required, List.lookup, hlimit]

end Fault

namespace IssueKind

def Storable : IssueKind → Prop
  | fault f => f.Storable
  | offFormation expected actual => expected.Finite ∧ actual.Finite
  | notOnSheet | unusedBeats _ => True

def name : IssueKind → String
  | fault _ => "continuity"
  | notOnSheet => "dotNotInSheet"
  | unusedBeats _ => "unusedBeats"
  | offFormation .. => "endsOffFormation"

def ownMembers (k : IssueKind) : Fields := k.toMembers.tail

theorem toMembers_eq (k : IssueKind) : k.toMembers = ("kind", text k.name) :: k.ownMembers := by
  cases k <;> rfl

theorem legible_ownMembers {k : IssueKind} (h : k.Storable) : ∀ m ∈ k.ownMembers, m.2.legible := by
  cases k with
  | fault f => simpa [ownMembers, toMembers] using Fault.legible_toJson h
  | notOnSheet => exact List.forall_mem_nil _
  | unusedBeats beats => simpa [ownMembers, toMembers] using legible_word32 beats
  | offFormation expected actual => simp [ownMembers, toMembers, Spot.legible_toJson]

theorem depth_ownMembers (k : IssueKind) : ∀ m ∈ k.ownMembers, m.2.depth ≤ 2 := by
  cases k with
  | fault f => simpa [ownMembers, toMembers] using f.depth_toJson
  | notOnSheet => exact List.forall_mem_nil _
  | unusedBeats beats => simp [ownMembers, toMembers, word32, count, depth]
  | offFormation expected actual =>
    have hexpected := expected.depth_toJson.trans (Nat.le_succ 1)
    have hactual := actual.depth_toJson.trans (Nat.le_succ 1)
    simp [ownMembers, toMembers, hexpected, hactual]

end IssueKind

namespace Issue

def frontMembers (i : Issue) : Fields :=
  [("dot", i.dot.toJson), ("sheet", i.sheet.toJson), ("severity", text i.severity.name)]

theorem toJson_eq_record (i : Issue) :
    i.toJson = record (i.frontMembers ++ ("kind", text i.kind.name) :: i.kind.ownMembers) := by
  rw [toJson, i.kind.toMembers_eq]
  rfl

theorem nodup_keys (i : Issue) :
    ((i.frontMembers ++ ("kind", text i.kind.name) :: i.kind.ownMembers).map Prod.fst).Nodup := by
  obtain ⟨dot, sheet, severity, _ | _ | _ | _⟩ := i
  · exact (by decide : ["dot", "sheet", "severity", "kind", "error"].Nodup)
  · exact (by decide : ["dot", "sheet", "severity", "kind"].Nodup)
  · exact (by decide : ["dot", "sheet", "severity", "kind", "beats"].Nodup)
  · exact (by decide : ["dot", "sheet", "severity", "kind", "expected", "actual"].Nodup)

theorem fields?_ownMembers (i : Issue) :
    (record (i.frontMembers ++ i.kind.ownMembers)).fields? (i.kind.ownMembers.map Prod.fst) =
      some i.kind.ownMembers := by
  have hnodup : ((i.frontMembers ++ i.kind.ownMembers).map Prod.fst).Nodup :=
    i.nodup_keys.sublist (((List.sublist_cons_self _ _).append_left _).map _)
  have hfront : i.frontMembers.filter (·.1 ∈ i.kind.ownMembers.map Prod.fst) = [] := by
    rw [List.map_append] at hnodup
    rw [List.filter_eq_nil_iff]
    intro m hm hown
    exact (List.nodup_append.mp hnodup).2.2 _ (List.mem_map_of_mem hm) _
      (of_decide_eq_true hown) rfl
  have hown : i.kind.ownMembers.filter (·.1 ∈ i.kind.ownMembers.map Prod.fst) =
      i.kind.ownMembers := by
    rw [List.filter_eq_self]
    exact fun m hm => decide_eq_true (List.mem_map_of_mem hm)
  rw [fields?_record hnodup, List.filter_append, hfront, hown, List.nil_append]

theorem ofTagged?_ownMembers {i : Issue} (h : i.kind.Storable) :
    IssueKind.ofTagged? (i.kind.name, record (i.frontMembers ++ i.kind.ownMembers)) =
      some i.kind := by
  have hfields := i.fields?_ownMembers
  obtain ⟨dot, sheet, severity, kind⟩ := i
  cases kind with
  | fault f =>
    change fields? ["error"] _ = some [("error", f.toJson)] at hfields
    rw [IssueKind.name, IssueKind.ofTagged?, hfields]
    simp [Fields.required, List.lookup, Fault.ofJson?_toJson h]
  | notOnSheet => rfl
  | unusedBeats beats =>
    change fields? ["beats"] _ = some [("beats", word32 beats)] at hfields
    rw [IssueKind.name, IssueKind.ofTagged?, hfields]
    simp [Fields.required, List.lookup, word32?_word32]
  | offFormation expected actual =>
    obtain ⟨hexpected, hactual⟩ := h
    change fields? ["expected", "actual"] _ =
      some [("expected", expected.toJson), ("actual", actual.toJson)] at hfields
    rw [IssueKind.name, IssueKind.ofTagged?, hfields]
    simp [Fields.required, List.lookup, Spot.ofJson?_toJson hexpected, Spot.ofJson?_toJson hactual]

theorem legible_toJson {i : Issue} (h : i.kind.Storable) : i.toJson.legible := by
  rw [toJson_eq_record, legible_record_iff, List.forall_mem_append, List.forall_mem_cons]
  refine ⟨?_, rfl, IssueKind.legible_ownMembers h⟩
  simp [frontMembers, DotId.toJson, SheetId.toJson, text, legible, legible_word32]

theorem depth_toJson (i : Issue) : i.toJson.depth ≤ 3 := by
  rw [toJson_eq_record, depth_record_le_iff, List.forall_mem_append, List.forall_mem_cons]
  refine ⟨?_, Nat.zero_le 2, i.kind.depth_ownMembers⟩
  simp [frontMembers, DotId.toJson, SheetId.toJson, text, word32, count, depth]

theorem ofJson?_toJson {i : Issue} (h : i.kind.Storable) : ofJson? i.toJson = some i := by
  have hfits : fitsTagged maxDepth i.toJson = true := by
    rw [fitsTagged, legible_toJson h, decide_eq_true (i.depth_toJson.trans (by decide))]
    rfl
  have hfields : i.toJson.fields? ["dot", "sheet", "severity"] = some i.frontMembers := by
    rw [toJson_eq_record, fields?_record i.nodup_keys]
    obtain ⟨dot, sheet, severity, _ | _ | _ | _⟩ := i <;> rfl
  have huntag : untag? "kind" i.toJson =
      some (i.kind.name, record (i.frontMembers ++ i.kind.ownMembers)) := by
    rw [toJson_eq_record]
    exact untag?_record i.frontMembers i.nodup_keys
  have hdot : Fields.required i.frontMembers "dot" DotId.ofJson? = some i.dot := rfl
  have hsheet : Fields.required i.frontMembers "sheet" SheetId.ofJson? = some i.sheet :=
    i.sheet.ofJson?_toJson
  have hseverity : Fields.required i.frontMembers "severity"
      (choice? isNull Severity.ofName?) = some i.severity := i.severity.ofName?_name
  have hkind := ofTagged?_ownMembers h
  rw [toJson_eq_record] at hfits hfields huntag ⊢
  change membersNamed? _ _ = _ at hfields
  rw [record] at hfits huntag ⊢
  simp only [ofJson?, hfits, hfields, huntag, Bool.not_true, Bool.false_eq_true, if_false,
    Option.bind_eq_bind, Option.bind_some, hdot, hsheet, hseverity, hkind]
  rfl

end Issue

namespace Diagnostics

def ofReports (reports : List (DotId × SheetId × IssueKind)) : Diagnostics :=
  reports.foldl (fun d r => d.report r.1 r.2.1 r.2.2) empty

theorem issues_ofReports (reports : List (DotId × SheetId × IssueKind)) :
    (ofReports reports).issues = reports.map fun r => Issue.report r.1 r.2.1 r.2.2 := by
  have hfold : ∀ d : Diagnostics,
      (reports.foldl (fun d r => d.report r.1 r.2.1 r.2.2) d).issues =
        d.issues ++ reports.map fun r => Issue.report r.1 r.2.1 r.2.2 := by
    induction reports with
    | nil => simp
    | cons r rs ih =>
      intro d
      rw [List.foldl_cons, ih, List.map_cons]
      exact List.append_assoc ..
  exact hfold empty

theorem ofText?_toText {d : Diagnostics} (h : ∀ i ∈ d.issues, i.kind.Storable) :
    ofText? d.toText = some d := by
  have hlegible : d.toJson.legible := by
    rw [toJson, legible_arr_iff, List.forall_mem_map]
    exact fun i hi => Issue.legible_toJson (h i hi)
  have hlist : d.toJson.list? (fun _ => Issue.ofJson?) = some d.issues :=
    list?_arr fun _ i hi => Issue.ofJson?_toJson (h i hi)
  rw [ofText?, toText, Json.ofText?_toText hlegible, Option.bind_some, hlist]
  rfl

end Diagnostics

/-- Commands whose numbers are finite and what is reported about finite spots come back as they are
from their texts, the issues in the order of the reports and each as grave as its kind is. -/
theorem stored_reads_back :
    (∀ c : Command, (∀ x ∈ c.floats, x.isFinite) → Command.ofText? c.toText = some c) ∧
    ∀ reports : List (DotId × SheetId × IssueKind), (∀ r ∈ reports, r.2.2.Storable) →
      Diagnostics.ofText? (Diagnostics.ofReports reports).toText =
        some (Diagnostics.ofReports reports) ∧
      (Diagnostics.ofReports reports).issues =
        reports.map fun r => ⟨r.1, r.2.1, r.2.2.severity, r.2.2⟩ := by
  refine ⟨fun c => Command.ofText?_toText, fun reports hreports => ?_⟩
  have hissues := Diagnostics.issues_ofReports reports
  refine ⟨Diagnostics.ofText?_toText ?_, hissues⟩
  rw [hissues, List.forall_mem_map]
  exact hreports

theorem stored_reads_back_of_each_kind :
    let march : Command := .move ⟨⟨0, 0⟩, ⟨0, -0.1⟩, 180, 359.5, 8, 2, .even⟩
    let swing : Command := .arc ⟨⟨0, 4⟩, ⟨0, 0⟩, -90, 16, 1, 4, 0, ⟨4, 1e-300⟩⟩
    let hold : Command := .stop (Stop.at ⟨1e22, 2⟩ 450 4294967295 0 true)
    let reports : List (DotId × SheetId × IssueKind) := [
      (⟨"A"⟩, ⟨0⟩, .fault (.missingSpot ⟨"\"B\\"⟩ ⟨4294967295⟩)),
      (⟨""⟩, ⟨1⟩, .fault (.emptyOrder "two")), (⟨"A"⟩, ⟨1⟩, .fault (.nestedTooDeep 64)),
      (⟨"A"⟩, ⟨2⟩, .notOnSheet), (⟨"A"⟩, ⟨2⟩, .unusedBeats 3),
      (⟨"A"⟩, ⟨0⟩, .offFormation ⟨0.1, 2⟩ ⟨0, -0.3⟩)]
    let d := Diagnostics.ofReports reports
    Command.ofText? march.toText = some march ∧ Command.ofText? swing.toText = some swing ∧
      Command.ofText? hold.toText = some hold ∧ Diagnostics.ofText? d.toText = some d ∧
      d.issues.map Issue.severity = [.error, .error, .error, .warning, .warning, .warning] := by
  intro march swing hold reports d
  obtain ⟨hcommands, hreports⟩ := stored_reads_back
  have hspots : (⟨0.1, 2⟩ : Spot).Finite ∧ (⟨0, -0.3⟩ : Spot).Finite := by
    unfold Spot.Finite
    decide +kernel
  obtain ⟨hback, hissues⟩ := hreports reports (by
    simp only [reports, List.forall_mem_cons]
    exact ⟨trivial, trivial, (by decide : 64 < UInt64.size), trivial, trivial, hspots,
      List.forall_mem_nil _⟩)
  exact ⟨hcommands march (by decide +kernel), hcommands swing (by decide +kernel),
    hcommands hold (by decide +kernel), hback, by rw [hissues]; rfl⟩

end MarchingDrill
