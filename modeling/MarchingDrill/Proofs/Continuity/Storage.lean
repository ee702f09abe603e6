import MarchingDrill.Continuity.Document
import MarchingDrill.Proofs.Motion.Storage

/-! Storage of continuities: what is written for a continuity is read back as this continuity, and
what is read from a document holds finite numbers only and is no deeper than its source. -/

namespace MarchingDrill

open Json

theorem LineUp.ofJson?_toJson (order : LineUp) : ofJson? order.toJson = some order :=
  list?_arr fun _ _ _ => rfl

theorem Symbol.ofName?_name (s : Symbol) : ofName? s.name = some s := by
  cases s <;> rfl

theorem Facing.ofName?_name (f : Facing) : ofName? f.name = some f := by
  cases f <;> rfl

namespace Tag

theorem keys_sublist (tag : Tag) : (tag.toMembers.map Prod.fst).Sublist fields := by
  obtain ⟨id, symbol, _ | n, _ | f⟩ := tag
  · exact (by decide : ["id", "dotType"].Sublist fields)
  · exact (by decide : ["id", "dotType", "orientation"].Sublist fields)
  · exact (by decide : ["id", "dotType", "beatsPerStep"].Sublist fields)
  · exact (by decide : ["id", "dotType", "beatsPerStep", "orientation"].Sublist fields)

end Tag

def Json.Fields.Own (fs : Fields) : Prop := ∀ m ∈ fs, m.1 ∉ Tag.fields

section Tagged

variable {tag : Tag} {fs : Fields}

theorem Tag.lookup_toMembers {name : String} (h : name ∉ fields) :
    tag.toMembers.lookup name = none := by
  rw [List.lookup_eq_none_iff]
  intro p hp
  have hne : name ≠ p.1 := by
    rintro rfl
    exact h (tag.keys_sublist.subset (List.mem_map_of_mem hp))
  simpa using hne

theorem Tag.lookup_append_own (hfs : fs.Own) {name : String} (h : name ∈ fields) :
    (tag.toMembers ++ fs).lookup name = tag.toMembers.lookup name := by
  have hnone : fs.lookup name = none := by
    rw [List.lookup_eq_none_iff]
    intro p hp
    have hne : name ≠ p.1 := by
      rintro rfl
      exact hfs p hp h
    simpa using hne
  rw [List.lookup_append, hnone, Option.or_none]

theorem Tag.ofFields?_toMembers (tag : Tag) (unnamed : String) (payload : Json → Bool)
    (hfs : fs.Own) : ofFields? unnamed payload (tag.toMembers ++ fs) = some tag := by
  have hid : Fields.withDefault (tag.toMembers ++ fs) "id" unnamed text? = some tag.id := rfl
  have hsymbol : Fields.withDefault (tag.toMembers ++ fs) "dotType" .plain
      (choice? payload Symbol.ofName?) = some tag.symbol := tag.symbol.ofName?_name
  have hpace : Fields.optional (tag.toMembers ++ fs) "beatsPerStep" word32? =
      some tag.beatsPerStep := by
    refine Fields.optional_of_lookup ?_ word32?_word32 nofun
    rw [lookup_append_own hfs (by decide)]
    obtain ⟨id, symbol, _ | n, _ | f⟩ := tag <;> rfl
  have hfacing : Fields.optional (tag.toMembers ++ fs) "orientation"
      (choice? payload Facing.ofName?) = some tag.facing := by
    have hlookup : (tag.toMembers ++ fs).lookup "orientation" =
        tag.facing.map fun f : Facing => text f.name := by
      rw [lookup_append_own hfs (by decide)]
      obtain ⟨id, symbol, _ | n, _ | f⟩ := tag <;> rfl
    exact Fields.optional_of_lookup hlookup Facing.ofName?_name nofun
  rw [ofFields?, hid, hsymbol, hpace, hfacing]
  rfl

theorem Tag.membersNamed?_tagged (tag : Tag) (kind : Json) {names : List String}
    (hfs : (fs.map Prod.fst).Sublist names) (hnames : ("type" :: (fields ++ names)).Nodup) :
    (membersNamed? ["type"]
        ((tag.toMembers ++ ("type", kind) :: fs).map fun m => (some m.1, m.2)) =
      some [("type", kind)]) ∧
    (membersNamed? (fields ++ names)
        ((tag.toMembers ++ ("type", kind) :: fs).map fun m => (some m.1, m.2)) =
      some (tag.toMembers ++ fs)) := by
  have hkeys : ((tag.toMembers ++ ("type", kind) :: fs).map Prod.fst).Nodup := by
    rw [List.map_append, List.map_cons]
    exact (List.nodup_middle.mpr hnames).sublist (tag.keys_sublist.append (hfs.cons_cons "type"))
  have htype := (List.nodup_cons.mp hnames).1
  have htag : ∀ m ∈ tag.toMembers, m.1 ∈ fields ++ names := fun m hm =>
    List.mem_append_left _ (tag.keys_sublist.subset (List.mem_map_of_mem hm))
  have hown : ∀ m ∈ fs, m.1 ∈ fields ++ names := fun m hm =>
    List.mem_append_right _ (hfs.subset (List.mem_map_of_mem hm))
  have hnot : ∀ ms : Fields, (∀ m ∈ ms, m.1 ∈ fields ++ names) →
      ms.filter (·.1 ∈ ["type"]) = [] := by
    intro ms hms
    rw [List.filter_eq_nil_iff]
    intro m hm htypes
    rw [decide_eq_true_eq, List.mem_singleton] at htypes
    exact htype (htypes ▸ hms m hm)
  have hall : ∀ ms : Fields, (∀ m ∈ ms, m.1 ∈ fields ++ names) →
      ms.filter (·.1 ∈ fields ++ names) = ms := by
    intro ms hms
    rw [List.filter_eq_self]
    exact fun m hm => decide_eq_true (hms m hm)
  constructor
  · rw [membersNamed?_map hkeys, List.filter_append, hnot _ htag, List.nil_append,
      List.filter_cons_of_pos (by simp), hnot _ hown]
  · rw [membersNamed?_map hkeys, List.filter_append, hall _ htag,
      List.filter_cons_of_neg (by simpa using htype), hall _ hown]

theorem Json.Fields.own_of_sublist {names : List String} (hfs : (fs.map Prod.fst).Sublist names)
    (hnames : ("type" :: (Tag.fields ++ names)).Nodup) : fs.Own := by
  intro m hm htag
  have hdisjoint := (List.nodup_append.mp (List.nodup_cons.mp hnames).2).2.2
  exact hdisjoint m.1 htag m.1 (hfs.subset (List.mem_map_of_mem hm)) rfl

end Tagged

namespace Figure

def kind : Figure → String
  | stop .. => "stop"
  | forward .. => "fm"
  | even => "even"
  | fountain .. => "fountain"
  | diagonal .. => "diagonal"
  | grapevine .. => "gv"
  | gate .. => "gate"
  | counterMarch .. => "cm"
  | followLeader .. => "ftl"

def ownMembers (f : Figure) : Fields := f.toMembers.tail

def floats : Figure → List Float
  | gate degrees _ center => [degrees, center.x, center.y]
  | followLeader _ path => path.flatMap fun s => [s.x, s.y]
  | _ => []

theorem toMembers_eq (f : Figure) : f.toMembers = ("type", text f.kind) :: f.ownMembers := by
  cases f <;> rfl

theorem kind_ne (f : Figure) : f.kind ≠ "two" := by
  cases f <;> simp [kind]

theorem exists_names (f : Figure) : ∃ names, fieldsOf? f.kind = some names ∧
    (f.ownMembers.map Prod.fst).Sublist names ∧ ("type" :: (Tag.fields ++ names)).Nodup := by
  cases f with
  | stop markTime duration =>
    refine ⟨["isMarkTime", "duration"], rfl, ?_, by decide⟩
    cases duration with
    | none => exact (by decide : ["isMarkTime"].Sublist ["isMarkTime", "duration"])
    | some n => exact .refl _
  | counterMarch order duration =>
    refine ⟨["order", "duration"], rfl, ?_, by decide⟩
    cases duration with
    | none => exact (by decide : ["order"].Sublist ["order", "duration"])
    | some n => exact .refl _
  | forward | even | fountain | diagonal | grapevine | gate | followLeader =>
    exact ⟨_, rfl, .refl _, by decide⟩

theorem ofFields?_append (kind : String) {front : Fields} (fs : Fields)
    (hfront : ∀ name, name ∉ Tag.fields → front.lookup name = none) :
    ofFields? kind (front ++ fs) = ofFields? kind fs := by
  unfold ofFields?
  split <;> simp [ending?, Fields.required_append_right, Fields.withDefault_append_right,
    Fields.optional_append_right, hfront, Tag.fields]

theorem list?_path {path : List Spot} (h : ∀ x ∈ path.flatMap fun s => [s.x, s.y], x.isFinite) :
    (Json.arr (path.map Spot.toJson)).list? (fun _ => Spot.ofJson?) = some path := by
  refine list?_arr ?_
  intro _ s hs
  simp only [List.mem_flatMap, List.mem_cons, List.not_mem_nil, or_false] at h
  exact Spot.ofJson?_toJson ⟨h s.x ⟨s, hs, .inl rfl⟩, h s.y ⟨s, hs, .inr rfl⟩⟩

theorem ofFields?_ownMembers (f : Figure) (hf : ∀ x ∈ f.floats, x.isFinite) :
    ofFields? f.kind f.ownMembers = some f := by
  cases f with
  | stop markTime duration =>
    have hduration : Fields.optional (stop markTime duration).ownMembers "duration" word32? =
        some duration :=
      Fields.optional_of_lookup (by cases duration <;> rfl) word32?_word32 nofun
    rw [kind, ofFields?, hduration]
    rfl
  | forward steps direction =>
    have hsteps : Fields.required (forward steps direction).ownMembers "steps" word32? =
        some steps := word32?_word32 steps
    rw [kind, ofFields?, hsteps]
    cases direction <;> rfl
  | even => rfl
  | fountain along ending => cases along <;> cases ending <;> rfl
  | diagonal along ending => cases along <;> cases ending <;> rfl
  | grapevine ending => cases ending <;> rfl
  | gate degrees clockwise center =>
    simp only [floats, List.forall_mem_cons] at hf
    have hdegrees : Fields.required (gate degrees clockwise center).ownMembers "degrees" float? =
        some degrees := float?_float hf.1
    have hcenter : Fields.required (gate degrees clockwise center).ownMembers "reference"
        Spot.ofJson? = some center := Spot.ofJson?_toJson ⟨hf.2.1, hf.2.2.1⟩
    rw [kind, ofFields?, hdegrees, hcenter]
    rfl
  | counterMarch order duration =>
    have horder : Fields.required (counterMarch order duration).ownMembers "order"
        LineUp.ofJson? = some order := order.ofJson?_toJson
    have hduration : Fields.optional (counterMarch order duration).ownMembers "duration" word32? =
        some duration :=
      Fields.optional_of_lookup (by cases duration <;> rfl) word32?_word32 nofun
    rw [kind, ofFields?, horder, hduration]
    rfl
  | followLeader order path =>
    have horder : Fields.required (followLeader order path).ownMembers "order"
        LineUp.ofJson? = some order := order.ofJson?_toJson
    have hpath : Fields.withDefault (followLeader order path).ownMembers "path" []
        (list? fun _ => Spot.ofJson?) = some path := list?_path hf
    rw [kind, ofFields?, horder, hpath]
    rfl

end Figure

namespace Continuity

mutual

def floats : Continuity → List Float
  | figure _ f => f.floats
  | twoStep _ _ _ parts => floatsAll parts

def floatsAll : List Continuity → List Float
  | [] => []
  | c :: cs => floats c ++ floatsAll cs

end

theorem toJsonAll_eq_map : ∀ cs : List Continuity, toJsonAll cs = cs.map toJson
  | [] => rfl
  | c :: cs => by
    rw [toJsonAll, toJsonAll_eq_map, List.map_cons]
    rfl

theorem mem_floatsAll_iff {x : Float} : ∀ {cs : List Continuity},
    x ∈ floatsAll cs ↔ ∃ c ∈ cs, x ∈ c.floats
  | [] => by simp [floatsAll]
  | c :: cs => by simp [floatsAll, mem_floatsAll_iff]

section Reading

variable {unnamed : String} {payload : Json → Bool} {read : Nat → Json → Option Continuity}

theorem ofMembers?_figure (tag : Tag) {f : Figure} (hf : ∀ x ∈ f.floats, x.isFinite) :
    ofMembers? unnamed payload read ((figure tag f).toMembers.map fun m => (some m.1, m.2)) =
      some (figure tag f) := by
  obtain ⟨names, hnames, hkeys, hnodup⟩ := f.exists_names
  obtain ⟨hkind, hfields⟩ :=
    tag.membersNamed?_tagged (text f.kind) hkeys hnodup
  have hown := Fields.own_of_sublist hkeys hnodup
  have hread : Figure.ofFields? f.kind (tag.toMembers ++ f.ownMembers) = some f := by
    rw [Figure.ofFields?_append f.kind f.ownMembers fun _ => Tag.lookup_toMembers]
    exact f.ofFields?_ownMembers hf
  have hrequired : Fields.required [("type", text f.kind)] "type" kind? = some f.kind := rfl
  rw [toMembers, f.toMembers_eq, ofMembers?, hkind]
  simp only [Option.bind_eq_bind, Option.bind_some, hrequired, if_neg f.kind_ne, hnames, hfields,
    tag.ofFields?_toMembers unnamed payload hown, hread]
  rfl

theorem ofMembers?_twoStep (tag : Tag) (order : LineUp) (markTime : Bool) {parts : List Continuity}
    (hparts : ∀ i, ∀ c ∈ parts, read i c.toJson = some c) :
    ofMembers? unnamed payload read
        ((twoStep tag order markTime parts).toMembers.map fun m => (some m.1, m.2)) =
      some (twoStep tag order markTime parts) := by
  let own : Fields := [("order", order.toJson), ("continuities", .arr (parts.map toJson)),
    ("isMarkTime", .bool markTime)]
  have hkeys : (own.map Prod.fst).Sublist ["order", "continuities", "isMarkTime"] := .refl _
  have hnodup : ("type" :: (Tag.fields ++ ["order", "continuities", "isMarkTime"])).Nodup := by
    decide
  obtain ⟨hkind, hfields⟩ :=
    tag.membersNamed?_tagged (text "two") hkeys hnodup
  have htag := tag.ofFields?_toMembers unnamed payload (Fields.own_of_sublist hkeys hnodup)
  have hfront : ∀ name, name ∉ Tag.fields → tag.toMembers.lookup name = none :=
    fun _ => Tag.lookup_toMembers
  have horder : Fields.required (tag.toMembers ++ own) "order" LineUp.ofJson? = some order := by
    rw [Fields.required_append_right _ (hfront _ (by decide))]
    exact order.ofJson?_toJson
  have hmark : Fields.withDefault (tag.toMembers ++ own) "isMarkTime" true bool? =
      some markTime := by
    rw [Fields.withDefault_append_right _ _ (hfront _ (by decide))]
    rfl
  have hlist : Fields.withDefault (tag.toMembers ++ own) "continuities" [] (list? read) =
      some parts := by
    rw [Fields.withDefault_append_right _ _ (hfront _ (by decide))]
    exact list?_arr hparts
  have hrequired : Fields.required [("type", text "two")] "type" kind? = some "two" := rfl
  have hmembers : (twoStep tag order markTime parts).toMembers =
      tag.toMembers ++ ("type", text "two") :: own := by rw [toMembers, toJsonAll_eq_map]
  rw [hmembers, ofMembers?, hkind]
  simp only [Option.bind_eq_bind, Option.bind_some, hrequired, if_true, hfields, htag, horder,
    hmark, hlist]
  rfl

theorem toJson_depth_part {tag : Tag} {order : LineUp} {markTime : Bool} {parts : List Continuity}
    {fuel : Nat} (h : (twoStep tag order markTime parts).toJson.depth ≤ fuel + 1) :
    ∀ c ∈ parts, c.toJson.depth + 1 ≤ fuel := by
  intro c hc
  rw [toJson, depth_record_le_iff] at h
  have hlist : (Json.arr (parts.map toJson)).depth ≤ fuel :=
    h ("continuities", _) (by simp [toMembers, toJsonAll_eq_map])
  cases fuel with
  | zero => cases hlist
  | succ fuel => exact Nat.succ_le_succ (depth_arr_le_iff.mp hlist _ (List.mem_map_of_mem hc))

mutual

theorem ofNestedJson?_toJson : ∀ (c : Continuity) (fuel : Nat) (names : Names),
    c.toJson.depth ≤ fuel → (∀ x ∈ c.floats, x.isFinite) →
      ofNestedJson? fuel names c.toJson = some c
  | c, 0, _, h, _ => by cases h
  | .figure tag f, fuel + 1, _, _, hf => ofMembers?_figure tag hf
  | .twoStep tag order markTime parts, fuel + 1, names, h, hf => by
    have hparts := fun c hc => Nat.le_of_succ_le (toJson_depth_part h c hc)
    exact ofMembers?_twoStep tag order markTime fun i =>
      ofNestedJson?_toJsonAll parts fuel (names.inside i) hparts hf

theorem ofNestedJson?_toJsonAll : ∀ (cs : List Continuity) (fuel : Nat) (names : Names),
    (∀ c ∈ cs, c.toJson.depth ≤ fuel) → (∀ x ∈ floatsAll cs, x.isFinite) →
      ∀ c ∈ cs, ofNestedJson? fuel names c.toJson = some c
  | [], _, _, _, _ => nofun
  | c :: cs, fuel, names, h, hf => by
    simp only [floatsAll, List.forall_mem_append, List.forall_mem_cons] at h hf ⊢
    exact ⟨ofNestedJson?_toJson c fuel names h.1 hf.1,
      ofNestedJson?_toJsonAll cs fuel names h.2 hf.2⟩

end

end Reading

end Continuity

theorem LineUp.legible_toJson (order : LineUp) : order.toJson.legible := by
  rw [toJson, legible_arr_iff, List.forall_mem_map]
  intro dot _
  rfl

theorem Tag.legible_toMembers (tag : Tag) : ∀ m ∈ tag.toMembers, m.2.legible := by
  rw [toMembers, List.forall_mem_append, List.forall_mem_append]
  refine ⟨⟨?_, legible_optionalMember _ legible_word32⟩, legible_optionalMember _ fun _ => rfl⟩
  simp [text, legible]

theorem Figure.legible_toMembers (f : Figure) : ∀ m ∈ f.toMembers, m.2.legible := by
  cases f with
  | stop markTime duration =>
    rw [toMembers, List.forall_mem_append]
    refine ⟨?_, legible_optionalMember _ legible_word32⟩
    simp [text, legible]
  | forward steps direction => simp [toMembers, text, legible, legible_word32]
  | even | fountain | diagonal | grapevine => simp [toMembers, text, legible]
  | gate degrees clockwise center =>
    simp [toMembers, text, legible, legible_float, Spot.legible_toJson]
  | counterMarch order duration =>
    rw [toMembers, List.forall_mem_append]
    refine ⟨?_, legible_optionalMember _ legible_word32⟩
    simp [text, legible, LineUp.legible_toJson]
  | followLeader order path =>
    simp [toMembers, text, legible, LineUp.legible_toJson, legibleList_iff, Spot.legible_toJson]

namespace Continuity

mutual

theorem legible_toJson : ∀ c : Continuity, c.toJson.legible
  | .figure tag f => by
    rw [toJson, legible_record_iff, toMembers, List.forall_mem_append]
    exact ⟨tag.legible_toMembers, f.legible_toMembers⟩
  | .twoStep tag order markTime parts => by
    have hparts := legible_toJsonAll parts
    rw [toJson, legible_record_iff, toMembers, List.forall_mem_append]
    refine ⟨tag.legible_toMembers, ?_⟩
    simpa [text, legible, LineUp.legible_toJson, legibleList_iff, toJsonAll_eq_map] using hparts

theorem legible_toJsonAll : ∀ cs : List Continuity, ∀ c ∈ cs, c.toJson.legible
  | [] => nofun
  | c :: cs => List.forall_mem_cons.mpr ⟨legible_toJson c, legible_toJsonAll cs⟩

end

theorem ofJson?_toJson {names : Names} {room : Nat} {c : Continuity}
    (hdepth : c.toJson.depth ≤ room) (hfloats : ∀ x ∈ c.floats, x.isFinite) :
    ofJson? names room c.toJson = some c := by
  have hfits : fitsTagged room c.toJson = true := by
    rw [fitsTagged, legible_toJson, decide_eq_true hdepth]
    rfl
  refine (if_pos hfits).trans ?_
  cases c with
  | figure tag f => exact ofMembers?_figure tag hfloats
  | twoStep tag order markTime parts =>
    refine ofMembers?_twoStep tag order markTime fun i =>
      ofNestedJson?_toJsonAll parts room (names.inside i) (fun c hc => ?_) hfloats
    have hpart := toJson_depth_part (Nat.le_succ_of_le hdepth) c hc
    omega

end Continuity

section Reading

theorem LineUp.depth_toJson (order : LineUp) : order.toJson.depth ≤ 1 := by
  rw [toJson, depth_arr_le_iff, List.forall_mem_map]
  exact fun _ _ => Nat.le_refl 0

theorem LineUp.depth_pos_of_ofJson? {v : Json} {order : LineUp} (h : ofJson? v = some order) :
    1 ≤ v.depth := by
  obtain ⟨items, rfl, -⟩ := exists_of_list? h
  exact Nat.succ_pos _

namespace Figure

variable {fs : Fields} {d : Nat}

theorem depth_pos_of_order (hfs : ∀ m ∈ fs, m.2.depth ≤ d) {order : LineUp}
    (h : fs.required "order" LineUp.ofJson? = some order) : 1 ≤ d := by
  obtain ⟨v, hv, hread⟩ := Fields.exists_of_required h
  exact (LineUp.depth_pos_of_ofJson? hread).trans (hfs _ hv)

theorem depth_order (hfs : ∀ m ∈ fs, m.2.depth ≤ d) {order : LineUp}
    (h : fs.required "order" LineUp.ofJson? = some order) : order.toJson.depth ≤ d :=
  order.depth_toJson.trans (depth_pos_of_order hfs h)

theorem of_path (hfs : ∀ m ∈ fs, m.2.depth ≤ d) (hd : 1 ≤ d) {path : List Spot}
    (h : fs.withDefault "path" [] (list? fun _ => Spot.ofJson?) = some path) :
    (∀ x ∈ path.flatMap fun s => [s.x, s.y], x.isFinite) ∧
      (Json.arr (path.map Spot.toJson)).depth ≤ d := by
  obtain rfl | ⟨v, hv, hread⟩ := Fields.exists_of_withDefault h
  · exact ⟨List.forall_mem_nil _, hd⟩
  · have hspots : ∀ s ∈ path, s.Finite :=
      forall_mem_of_list? (fun _ v s hs => (Spot.of_ofJson? hs).1) hread
    refine ⟨?_, (depth_arr_of_list? (fun _ v s hs => ?_) hread).trans (hfs _ hv)⟩
    · simp only [List.mem_flatMap, List.mem_cons, List.not_mem_nil, or_false]
      rintro x ⟨s, hs, rfl | rfl⟩
      · exact (hspots s hs).1
      · exact (hspots s hs).2
    · exact s.depth_toJson.trans (Spot.of_ofJson? hs).2

theorem of_ofFields? {kind : String} {f : Figure} (hfs : ∀ m ∈ fs, m.2.depth ≤ d)
    (h : ofFields? kind fs = some f) :
    (∀ x ∈ f.floats, x.isFinite) ∧ ∀ m ∈ f.toMembers, m.2.depth ≤ d := by
  unfold ofFields? at h
  split at h
  case h_10 => cases h
  all_goals
    simp only [Option.bind_eq_bind, Option.bind_eq_some_iff, Option.pure_def,
      Option.some.injEq] at h
  · obtain ⟨markTime, -, duration, -, rfl⟩ := h
    refine ⟨List.forall_mem_nil _, ?_⟩
    cases duration <;> simp [toMembers, optionalMember, text, word32, count, depth]
  · obtain ⟨steps, -, direction, -, rfl⟩ := h
    exact ⟨List.forall_mem_nil _, by simp [toMembers, text, word32, count, depth]⟩
  · subst h
    exact ⟨List.forall_mem_nil _, by simp [toMembers, text, depth]⟩
  · obtain ⟨along, -, ending, -, rfl⟩ := h
    exact ⟨List.forall_mem_nil _, by simp [toMembers, text, depth]⟩
  · obtain ⟨along, -, ending, -, rfl⟩ := h
    exact ⟨List.forall_mem_nil _, by simp [toMembers, text, depth]⟩
  · obtain ⟨ending, -, rfl⟩ := h
    exact ⟨List.forall_mem_nil _, by simp [toMembers, text, depth]⟩
  · obtain ⟨degrees, hdegrees, clockwise, -, center, hcenter, rfl⟩ := h
    obtain ⟨v, -, hdegrees⟩ := Fields.exists_of_required hdegrees
    obtain ⟨w, hw, hcenter⟩ := Fields.exists_of_required hcenter
    obtain ⟨⟨hx, hy⟩, hdepth⟩ := Spot.of_ofJson? hcenter
    have hd : center.toJson.depth ≤ d := (center.depth_toJson.trans hdepth).trans (hfs _ hw)
    exact ⟨by simp [floats, isFinite_of_float? hdegrees, hx, hy],
      by simp [toMembers, text, depth, depth_float, hd]⟩
  · obtain ⟨order, horder, duration, -, rfl⟩ := h
    have hd := depth_order hfs horder
    refine ⟨List.forall_mem_nil _, ?_⟩
    cases duration <;> simp [toMembers, optionalMember, text, word32, count, depth, hd]
  · obtain ⟨order, horder, path, hpath, rfl⟩ := h
    have hd := depth_order hfs horder
    obtain ⟨hfinite, hpath⟩ := of_path hfs (depth_pos_of_order hfs horder) hpath
    refine ⟨hfinite, ?_⟩
    simp only [toMembers, List.forall_mem_cons]
    exact ⟨Nat.zero_le _, hd, hpath, List.forall_mem_nil _⟩

end Figure

theorem Tag.depth_toMembers (tag : Tag) : ∀ m ∈ tag.toMembers, m.2.depth ≤ 0 := by
  obtain ⟨id, symbol, _ | n, _ | f⟩ := tag <;>
    simp [toMembers, optionalMember, text, word32, count, depth]

structure Continuity.ReadFrom (v : Json) (c : Continuity) : Prop where
  finite : ∀ x ∈ c.floats, x.isFinite
  depth : c.toJson.depth ≤ v.depth

namespace Continuity

variable {unnamed : String} {payload : Json → Bool}

theorem readFrom_of_ofMembers? {read : Nat → Json → Option Continuity} {c : Continuity}
    {members : List (Option String × Json)} (hread : ∀ i v c, read i v = some c → c.ReadFrom v)
    (h : ofMembers? unnamed payload read members = some c) : c.ReadFrom (.obj members) := by
  have hfields : ∀ {names fs}, membersNamed? names members = some fs →
      ∀ m ∈ fs, m.2.depth ≤ depthMembers members := fun hfs m hm =>
    depthMembers_le_iff.mp (Nat.le_refl _) _ (mem_of_membersNamed? hfs hm)
  simp only [ofMembers?, Option.bind_eq_bind, Option.bind_eq_some_iff] at h
  obtain ⟨-, -, kind, -, h⟩ := h
  split at h
  · simp only [Option.bind_eq_some_iff, Option.pure_def, Option.some.injEq] at h
    obtain ⟨fs, hfs, tag, -, order, horder, markTime, -, parts, hparts, rfl⟩ := h
    have hd := Figure.depth_pos_of_order (hfields hfs) horder
    refine ⟨?_, ?_⟩
    · intro x hx
      obtain ⟨c, hc, hx⟩ := mem_floatsAll_iff.mp hx
      obtain rfl | ⟨v, -, hlist⟩ := Fields.exists_of_withDefault hparts
      · cases hc
      · exact forall_mem_of_list? (fun i v c hc => (hread i v c hc).finite) hlist c hc x hx
    · have hlist : (Json.arr (parts.map toJson)).depth ≤ depthMembers members := by
        obtain rfl | ⟨v, hv, hlist⟩ := Fields.exists_of_withDefault hparts
        · exact hd
        · exact (depth_arr_of_list? (fun i v c hc => (hread i v c hc).depth) hlist).trans
            (hfields hfs _ hv)
      rw [toJson, toMembers, toJsonAll_eq_map]
      refine depth_record_le_iff.mpr (List.forall_mem_append.mpr ⟨fun m hm => ?_, ?_⟩)
      · exact (tag.depth_toMembers m hm).trans (Nat.zero_le _)
      · simp only [List.forall_mem_cons]
        exact ⟨Nat.zero_le _, Figure.depth_order (hfields hfs) horder, hlist, Nat.zero_le _,
          List.forall_mem_nil _⟩
  · simp only [Option.bind_eq_some_iff, Option.pure_def, Option.some.injEq] at h
    obtain ⟨names, -, fs, hfs, tag, -, f, hf, rfl⟩ := h
    obtain ⟨hfinite, hdepth⟩ := Figure.of_ofFields? (hfields hfs) hf
    refine ⟨hfinite, ?_⟩
    refine depth_record_le_iff.mpr (List.forall_mem_append.mpr ⟨fun m hm => ?_, hdepth⟩)
    exact (tag.depth_toMembers m hm).trans (Nat.zero_le _)

theorem readFrom_of_ofNestedJson? {fuel : Nat} : ∀ (names : Names) (v : Json) (c : Continuity),
    ofNestedJson? fuel names v = some c → c.ReadFrom v := by
  induction fuel with
  | zero => nofun
  | succ fuel ih =>
    intro names v c h
    cases v with
    | obj members => exact readFrom_of_ofMembers? (fun i => ih (names.inside i)) h
    | null | bool | num | str | arr => cases h

theorem readFrom_of_ofJson? {names : Names} {room : Nat} {v : Json} {c : Continuity}
    (h : ofJson? names room v = some c) : c.ReadFrom v ∧ v.depth ≤ room := by
  cases v with
  | obj members =>
    rw [ofJson?] at h
    split at h
    · next hfits =>
      rw [fitsTagged, Bool.and_eq_true, decide_eq_true_eq] at hfits
      exact ⟨readFrom_of_ofMembers? (fun i => readFrom_of_ofNestedJson? (names.inside i)) h,
        hfits.1⟩
    · cases h
  | null | bool | num | str | arr => cases h

end Continuity

end Reading

end MarchingDrill
