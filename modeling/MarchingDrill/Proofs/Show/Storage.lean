import MarchingDrill.Proofs.Continuity.Storage
import MarchingDrill.Proofs.Json.Parsing
import MarchingDrill.Proofs.Show.Acceptance

/-! Storage of shows: every show that has been read from a document comes back as it is from the
text that is written for it. -/

namespace MarchingDrill

open Json

namespace Continuity

section Retag

variable (s : Symbol)

mutual

theorem retag_retag : ∀ c : Continuity, retag s (retag s c) = retag s c
  | .figure _ _ => rfl
  | .twoStep _ _ _ parts => by
    simp only [retag, retagAll_retagAll parts]

theorem retagAll_retagAll : ∀ cs : List Continuity, retagAll s (retagAll s cs) = retagAll s cs
  | [] => rfl
  | c :: cs => by
    simp only [retagAll, retag_retag c, retagAll_retagAll cs]

end

mutual

theorem floats_retag : ∀ c : Continuity, (retag s c).floats = c.floats
  | .figure _ _ => rfl
  | .twoStep _ _ _ parts => floatsAll_retagAll parts

theorem floatsAll_retagAll : ∀ cs : List Continuity, floatsAll (retagAll s cs) = floatsAll cs
  | [] => rfl
  | c :: cs => by
    simp only [retagAll, floatsAll, floats_retag c, floatsAll_retagAll cs]

end

theorem depth_tagged_le_iff {tag : Tag} {ms : Fields} {n : Nat} :
    (record (tag.toMembers ++ ms)).depth ≤ n + 1 ↔ ∀ m ∈ ms, m.2.depth ≤ n := by
  rw [depth_record_le_iff, List.forall_mem_append]
  exact and_iff_right fun m hm => (tag.depth_toMembers m hm).trans (Nat.zero_le n)

mutual

theorem depth_retag_le : ∀ (c : Continuity) (n : Nat), c.toJson.depth ≤ n →
    (retag s c).toJson.depth ≤ n
  | c, 0, h => by cases h
  | .figure _ _, n + 1, h => depth_tagged_le_iff.mpr (depth_tagged_le_iff.mp h)
  | .twoStep tag order markTime parts, n + 1, h => by
    have hmembers := depth_tagged_le_iff.mp h
    refine depth_tagged_le_iff.mpr ?_
    simp only [List.forall_mem_cons, toJsonAll_eq_map] at hmembers ⊢
    obtain ⟨htype, horder, hlist, hrest⟩ := hmembers
    refine ⟨htype, horder, ?_, hrest⟩
    cases n with
    | zero => cases hlist
    | succ n =>
      rw [depth_arr_le_iff, List.forall_mem_map] at hlist ⊢
      exact depth_retagAll_le parts n hlist

theorem depth_retagAll_le : ∀ (cs : List Continuity) (n : Nat), (∀ c ∈ cs, c.toJson.depth ≤ n) →
    ∀ c ∈ retagAll s cs, c.toJson.depth ≤ n
  | [], _, _ => nofun
  | c :: cs, n, h => by
    simp only [retagAll, List.forall_mem_cons] at h ⊢
    exact ⟨depth_retag_le c n h.1, depth_retagAll_le cs n h.2⟩

end

end Retag

end Continuity

theorem Dot.ofJson?_toJson (d : Dot) : ofJson? d.toJson = some d := by
  have hfields : d.toJson.fields? ["id", "label"] =
      some [("id", d.id.toJson), ("label", text d.label)] :=
    fields?_record_of_sublist (.refl _) (by decide)
  rw [ofJson?, hfields]
  rfl

namespace Placement

theorem ofJson?_toJson {p : Placement} (hx : p.spot.x.isFinite) (hy : p.spot.y.isFinite) :
    ofJson? p.toJson = some p := by
  have hfields : p.toJson.fields? ["x", "y", "dotType"] =
      some [("x", float p.spot.x), ("y", float p.spot.y), ("dotType", text p.symbol.name)] :=
    fields?_record_of_sublist (.refl _) (by decide)
  have hsymbol : choice? isNull Symbol.ofName? (text p.symbol.name) = some p.symbol :=
    p.symbol.ofName?_name
  rw [ofJson?, hfields]
  simp [Fields.required, Fields.withDefault, List.lookup, float?_float hx, float?_float hy,
    hsymbol]

theorem isFinite_of_ofJson? {v : Json} {p : Placement} (h : ofJson? v = some p) :
    p.spot.x.isFinite ∧ p.spot.y.isFinite := by
  simp only [ofJson?, Option.bind_eq_bind, Option.bind_eq_some_iff, Option.pure_def,
    Option.some.injEq] at h
  obtain ⟨fs, -, x, hx, y, hy, symbol, -, rfl⟩ := h
  obtain ⟨v, -, hx⟩ := Fields.exists_of_required hx
  obtain ⟨w, -, hy⟩ := Fields.exists_of_required hy
  exact ⟨isFinite_of_float? hx, isFinite_of_float? hy⟩

theorem legible_toJson (p : Placement) : p.toJson.legible := by
  rw [toJson, legible_record_iff]
  simp [legible_float, text, legible]

end Placement

namespace Sheet

structure Storable (t : Sheet) : Prop where
  positions : ∀ p ∈ t.positions.values, p.spot.x.isFinite ∧ p.spot.y.isFinite
  finite : ∀ list ∈ t.continuities.values, ∀ c ∈ list, ∀ x ∈ c.floats, x.isFinite
  depth : ∀ list ∈ t.continuities.values, ∀ c ∈ list, c.toJson.depth ≤ continuityRoom

theorem keys_sublist (t : Sheet) : (t.toMembers.map Prod.fst).Sublist fields := by
  obtain ⟨id, label, beats, _ | n, _ | f, positions, continuities⟩ := t
  · exact (by decide : ["id", "label", "beats", "positions", "continuities"].Sublist fields)
  · exact (by decide :
      ["id", "label", "beats", "orientation", "positions", "continuities"].Sublist fields)
  · exact (by decide :
      ["id", "label", "beats", "beatsPerStep", "positions", "continuities"].Sublist fields)
  · exact .refl _

theorem ofJson?_toJson {t : Sheet} (h : t.Storable) (names : Names) :
    ofJson? names t.toJson = some t := by
  have hfields : t.toJson.fields? fields = some t.toMembers :=
    fields?_record_of_sublist t.keys_sublist (by decide)
  have hid : Fields.required t.toMembers "id" word32? = some t.id.number := word32?_word32 _
  have hlabel : Fields.withDefault t.toMembers "label" "" text? = some t.label := rfl
  have hbeats : Fields.required t.toMembers "beats" word32? = some t.beats := word32?_word32 _
  have hpace : Fields.optional t.toMembers "beatsPerStep" word32? = some t.beatsPerStep := by
    refine Fields.optional_of_lookup ?_ word32?_word32 nofun
    obtain ⟨id, label, beats, _ | n, _ | f, positions, continuities⟩ := t <;> rfl
  have hfacing : Fields.optional t.toMembers "orientation" facing? = some t.facing := by
    have hlookup : t.toMembers.lookup "orientation" =
        t.facing.map fun f : Facing => text f.name := by
      obtain ⟨id, label, beats, _ | n, _ | f, positions, continuities⟩ := t <;> rfl
    exact Fields.optional_of_lookup hlookup Facing.ofName?_name nofun
  have hpositions : Fields.withDefault t.toMembers "positions" .empty
      (map? (fun name => some ⟨name⟩) fun _ => Placement.ofJson?) = some t.positions := by
    rw [Fields.withDefault_of_lookup _ _
      (v := record (t.positions.entries.map fun e => (e.1.name, e.2.toJson)))]
    · exact map?_record DotId.name Placement.toJson (fun _ _ => rfl) fun _ p hp =>
        Placement.ofJson?_toJson (h.positions p hp).1 (h.positions p hp).2
    · obtain ⟨id, label, beats, _ | n, _ | f, positions, continuities⟩ := t <;> rfl
  have hcontinuities : Fields.withDefault t.toMembers "continuities" .empty
      (map? Symbol.ofName? fun i => list? fun j =>
        Continuity.ofJson? ((names.inside i).inside j) continuityRoom) = some t.continuities := by
    rw [Fields.withDefault_of_lookup _ _ (v := record
      (t.continuities.entries.map fun e => (e.1.name, .arr (Continuity.toJsonAll e.2))))]
    · refine map?_record Symbol.name (fun cs => .arr (Continuity.toJsonAll cs))
        (fun s _ => s.ofName?_name) fun _ list hlist => ?_
      rw [Continuity.toJsonAll_eq_map]
      exact list?_arr fun _ c hc =>
        Continuity.ofJson?_toJson (h.depth list hlist c hc) (h.finite list hlist c hc)
    · obtain ⟨id, label, beats, _ | n, _ | f, positions, continuities⟩ := t <;> rfl
  rw [ofJson?, hfields]
  simp only [Option.bind_eq_bind, Option.bind_some, hid, hlabel, hbeats, hpace, hfacing,
    hpositions, hcontinuities]
  rfl

theorem legible_toJson (t : Sheet) : t.toJson.legible := by
  have hpositions : ∀ e ∈ t.positions.entries, e.2.toJson.legible :=
    fun e _ => e.2.legible_toJson
  have hcontinuities : ∀ e ∈ t.continuities.entries,
      (Json.arr (Continuity.toJsonAll e.2)).legible := by
    intro e _
    rw [Continuity.toJsonAll_eq_map, legible_arr_iff, List.forall_mem_map]
    exact fun c _ => c.legible_toJson
  rw [toJson, legible_record_iff, toMembers]
  simp only [List.forall_mem_append, List.forall_mem_cons, legible_record_iff, List.forall_mem_map]
  exact ⟨⟨⟨⟨legible_word32 _, rfl, legible_word32 _, List.forall_mem_nil _⟩,
    legible_optionalMember _ legible_word32⟩, legible_optionalMember _ fun _ => rfl⟩,
    hpositions, hcontinuities, List.forall_mem_nil _⟩

theorem storable_of_ofJson? {names : Names} {v : Json} {t : Sheet}
    (h : ofJson? names v = some t) : t.Storable := by
  simp only [ofJson?, Option.bind_eq_bind, Option.bind_eq_some_iff, Option.pure_def,
    Option.some.injEq] at h
  obtain ⟨fs, -, id, -, label, -, beats, -, pace, -, facing, -, positions, hpositions,
    continuities, hcontinuities, rfl⟩ := h
  have hread : ∀ list ∈ continuities.values, ∀ c ∈ list, ∃ v : Json,
      c.ReadFrom v ∧ v.depth ≤ continuityRoom := by
    intro list hlist
    obtain rfl | ⟨w, -, hmap⟩ := Fields.exists_of_withDefault hcontinuities
    · cases hlist
    · obtain ⟨_, u, hu⟩ := exists_of_mem_values_map? hmap hlist
      exact forall_mem_of_list? (fun _ v c hc => ⟨v, Continuity.readFrom_of_ofJson? hc⟩) hu
  refine ⟨?_, ?_, ?_⟩
  · intro p hp
    obtain rfl | ⟨w, -, hmap⟩ := Fields.exists_of_withDefault hpositions
    · cases hp
    · obtain ⟨_, u, hu⟩ := exists_of_mem_values_map? hmap hp
      exact Placement.isFinite_of_ofJson? hu
  · intro list hlist c hc
    obtain ⟨v, hv, -⟩ := hread list hlist c hc
    exact hv.finite
  · intro list hlist c hc
    obtain ⟨v, hv, hroom⟩ := hread list hlist c hc
    exact hv.depth.trans hroom

theorem Storable.retagged {t : Sheet} (h : t.Storable) : (Show.retagged t).Storable := by
  have hlists : ∀ list ∈ (Show.retagged t).continuities.values, ∃ old ∈ t.continuities.values,
      ∃ symbol, list = Continuity.retagAll symbol old := by
    intro list hlist
    simp only [OrderedMap.values, Show.retagged, OrderedMap.map, List.map_map,
      List.mem_map] at hlist
    obtain ⟨e, he, rfl⟩ := hlist
    exact ⟨e.2, List.mem_map_of_mem he, e.1, rfl⟩
  refine ⟨h.positions, ?_, ?_⟩
  · intro list hlist c hc x hx
    obtain ⟨old, hold, symbol, rfl⟩ := hlists list hlist
    have hmem := Continuity.mem_floatsAll_iff.mpr ⟨c, hc, hx⟩
    rw [Continuity.floatsAll_retagAll] at hmem
    obtain ⟨c', hc', hx'⟩ := Continuity.mem_floatsAll_iff.mp hmem
    exact h.finite old hold c' hc' x hx'
  · intro list hlist
    obtain ⟨old, hold, symbol, rfl⟩ := hlists list hlist
    exact Continuity.depth_retagAll_le symbol old continuityRoom (h.depth old hold)

theorem retagged_retagged (t : Sheet) : Show.retagged (Show.retagged t) = Show.retagged t := by
  simp [Show.retagged, OrderedMap.map, Continuity.retagAll_retagAll]

end Sheet

namespace Show

variable {names : Names} {doc : String} {s : Show}

theorem ofJson?_toJson (h : ∀ t ∈ s.sheets, t.Storable) (names : Names) :
    ofJson? names s.toJson = some { s with counter := .start } := by
  let members : Fields := [("name", text s.name), ("beatsPerStep", word32 s.beatsPerStep),
    ("orientation", text s.facing.name), ("dots", .arr (s.dots.map Dot.toJson)),
    ("sheets", .arr (s.sheets.map Sheet.toJson))]
  have hfields : s.toJson.fields? fields = some members :=
    fields?_record_of_sublist (.refl _) (by decide)
  have hname : Fields.required members "name" text? = some s.name := rfl
  have hpace : Fields.withDefault members "beatsPerStep" 1 word32? = some s.beatsPerStep :=
    word32?_word32 s.beatsPerStep
  have hfacing : Fields.withDefault members "orientation" .east facing? = some s.facing :=
    s.facing.ofName?_name
  have hdots : Fields.withDefault members "dots" [] (list? fun _ => Dot.ofJson?) = some s.dots :=
    (Fields.withDefault_of_lookup _ _ rfl).trans (list?_arr fun _ d _ => d.ofJson?_toJson)
  have hsheets : Fields.withDefault members "sheets" []
      (list? fun i => Sheet.ofJson? (names.inside i)) = some s.sheets :=
    (Fields.withDefault_of_lookup _ _ rfl).trans
      (list?_arr fun i t ht => Sheet.ofJson?_toJson (h t ht) (names.inside i))
  rw [ofJson?, hfields]
  simp only [Option.bind_eq_bind, Option.bind_some, hname, hpace, hfacing, hdots, hsheets]
  rfl

theorem storable_of_ofJson? {v : Json} (h : ofJson? names v = some s) :
    ∀ t ∈ s.sheets, t.Storable := by
  simp only [ofJson?, Option.bind_eq_bind, Option.bind_eq_some_iff, Option.pure_def,
    Option.some.injEq] at h
  obtain ⟨fs, -, name, -, pace, -, facing, -, dots, -, sheets, hsheets, rfl⟩ := h
  obtain rfl | ⟨w, -, hlist⟩ := Fields.exists_of_withDefault hsheets
  · nofun
  · exact forall_mem_of_list? (fun _ v t ht => Sheet.storable_of_ofJson? ht) hlist

theorem exists_decoded_of_ofText (h : ofText names doc = .ok s) :
    ∃ v u, ofJson? names v = some u ∧ s = u.normalized := by
  rw [ofText] at h
  split at h
  · cases h
  · next u hu =>
    obtain ⟨v, -, hv⟩ := Option.bind_eq_some_iff.mp hu
    obtain ⟨-, -, hs⟩ := exists_of_bind_eq_ok h
    cases hs
    exact ⟨v, u, hv, rfl⟩

theorem storable_of_ofText (h : ofText names doc = .ok s) : ∀ t ∈ s.sheets, t.Storable := by
  obtain ⟨v, u, hu, rfl⟩ := exists_decoded_of_ofText h
  rw [normalized, List.forall_mem_map]
  exact fun t ht => (storable_of_ofJson? hu t ht).retagged

theorem normalized_of_ofText (h : ofText names doc = .ok s) :
    normalized { s with counter := .start } = s := by
  obtain ⟨v, u, -, rfl⟩ := exists_decoded_of_ofText h
  have hids : (u.sheets.map retagged).map Sheet.id = u.sheets.map Sheet.id := by
    rw [List.map_map]
    rfl
  simp only [normalized, sheetIds, hids, List.map_map, Function.comp_def, Sheet.retagged_retagged]

theorem counter_of_ofText (h : ofText names doc = .ok s) :
    s.counter = s.sheetIds.foldl SheetCounter.skip .start :=
  (congrArg Show.counter (normalized_of_ofText h)).symm

theorem legible_toJson (s : Show) : s.toJson.legible := by
  rw [toJson, legible_record_iff]
  simp only [List.forall_mem_cons, legible_arr_iff, List.forall_mem_map]
  exact ⟨rfl, legible_word32 _, rfl, fun _ _ => rfl, fun t _ => t.legible_toJson,
    List.forall_mem_nil _⟩

/-- Every show that has been read comes back from its own text as it is. -/
theorem ofText_toText (h : ofText names doc = .ok s) (names' : Names) :
    ofText names' s.toText = .ok s := by
  have hdecoded : (Json.ofText? s.toText).bind (ofJson? names') =
      some { s with counter := .start } := by
    rw [toText, ofText?_toText s.legible_toJson, Option.bind_some,
      ofJson?_toJson (storable_of_ofText h)]
  rw [ofText, hdecoded]
  simp only [normalized_of_ofText h, validate_of_ofText h]
  rfl

/-- A show in spellings that it is not written in: arrays for records, an object for a choice,
escapes for characters, numbers with exponents, and a two-step within a two-step without any ids. -/
def looselySpelledDocument : String :=
  "[\"\\u00e9\\ud83d\\ude00\\n\",1,\x7b\"west\":null\x7d,[[\"A\"]],[[7,\"\",4,null,null," ++
    "\x7b\"A\":[1E-1,-25e-3]\x7d,\x7b\"solid\":[\x7b\"type\":\"two\",\"order\":[\"A\"]," ++
    "\"continuities\":[\x7b\"type\":\"two\",\"beatsPerStep\":2,\"order\":[]\x7d]\x7d]\x7d]]]"

theorem ofText_toText_loosely_spelled :
    let names : Names := fun way => if way = [0, 0, 0] then "around" else "within"
    ∃ s, ofText names looselySpelledDocument = .ok s ∧
      s.name = "é😀\n" ∧ s.facing = .west ∧
      s.sheets.map (fun t => t.positions.values.map Placement.spot) = [[⟨0.1, -0.025⟩]] ∧
      (s.sheets.flatMap fun t => t.continuities.values.flatten.flatMap Continuity.walk).map
        (fun c => c.tag.id) = ["around", "within"] ∧
      ofText (.same "other") s.toText = .ok s := by
  intro names
  have hrun : (ofText names looselySpelledDocument).toOption.any (fun s => decide
      (s.name = "é😀\n" ∧ s.facing = .west ∧
        s.sheets.map (fun t => t.positions.values.map Placement.spot) = [[⟨0.1, -0.025⟩]] ∧
        (s.sheets.flatMap fun t => t.continuities.values.flatten.flatMap Continuity.walk).map
          (fun c => c.tag.id) = ["around", "within"])) = true := by
    decide +kernel
  obtain ⟨s, hread, hfacts⟩ := exists_ok_of_any hrun
  obtain ⟨hname, hfacing, hspots, hids⟩ := of_decide_eq_true hfacts
  exact ⟨s, hread, hname, hfacing, hspots, hids, ofText_toText hread (.same "other")⟩

end Show

end MarchingDrill
