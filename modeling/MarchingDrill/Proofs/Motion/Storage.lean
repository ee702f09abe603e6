import MarchingDrill.Motion.Document
import MarchingDrill.Proofs.Json.Numbers
import MarchingDrill.Proofs.Json.Parsing
import MarchingDrill.Proofs.Json.Records

/-! Storage of spots and commands: a command whose numbers are finite comes back as it is from the
text that is written for it. Its kind is named by a member of its own, which stands beside its
fields. -/

namespace MarchingDrill

open Json

namespace Json

theorem untag?_record {tag name : String} (front : Fields) {rest : Fields}
    (hkeys : ((front ++ (tag, text name) :: rest).map Prod.fst).Nodup) :
    untag? tag (record (front ++ (tag, text name) :: rest)) =
      some (name, record (front ++ rest)) := by
  have hnew : tag ∉ (front ++ rest).map Prod.fst := by
    rw [List.map_append, List.map_cons, List.nodup_middle, ← List.map_append,
      List.nodup_cons] at hkeys
    exact hkeys.1
  have hne : ∀ m ∈ front ++ rest, m.1 ≠ tag := by
    rintro m hm rfl
    exact hnew (List.mem_map_of_mem hm)
  have hfront : ∀ m ∈ front, m.1 ≠ tag := fun m hm => hne m (List.mem_append_left _ hm)
  have hrest : ∀ m ∈ rest, m.1 ≠ tag := fun m hm => hne m (List.mem_append_right _ hm)
  have hnot : ∀ ms : Fields, (∀ m ∈ ms, m.1 ≠ tag) → ms.filter (·.1 ∈ [tag]) = [] := by
    intro ms hms
    rw [List.filter_eq_nil_iff]
    intro m hm htag
    exact hms m hm (List.mem_singleton.mp (of_decide_eq_true htag))
  have hkeep : ∀ ms : Fields, (∀ m ∈ ms, m.1 ≠ tag) →
      (ms.map fun m => (some m.1, m.2)).filter (·.1 != some tag) =
        ms.map fun m => (some m.1, m.2) := by
    intro ms hms
    rw [List.filter_eq_self, List.forall_mem_map]
    intro m hm
    simpa using hms m hm
  have htag : membersNamed? [tag]
      ((front ++ (tag, text name) :: rest).map fun m => (some m.1, m.2)) =
        some [(tag, text name)] := by
    rw [membersNamed?_map hkeys, List.filter_append, hnot _ hfront, List.nil_append,
      List.filter_cons_of_pos (by simp), hnot _ hrest]
  have hname : Fields.required [(tag, text name)] tag text? = some name := by
    simp [Fields.required, List.lookup, text, text?]
  rw [record, untag?, htag]
  simp only [Option.bind_eq_bind, Option.bind_some, hname, List.map_append, List.map_cons,
    List.filter_append, hkeep _ hfront]
  rw [List.filter_cons_of_neg (by simp), hkeep _ hrest, record, List.map_append]
  rfl

end Json

namespace Spot

theorem ofJson?_toJson {s : Spot} (h : s.Finite) : ofJson? s.toJson = some s := by
  have hfields : s.toJson.fields? ["x", "y"] = some [("x", float s.x), ("y", float s.y)] :=
    fields?_record (by simp) _
  rw [ofJson?, hfields]
  simp [Fields.required, List.lookup, float?_float h.1, float?_float h.2]

theorem legible_toJson (s : Spot) : s.toJson.legible := by
  rw [toJson, legible_record_iff]
  simp [legible_float]

theorem depth_toJson (s : Spot) : s.toJson.depth ≤ 1 := by
  rw [toJson, depth_record_le_iff]
  simp [depth_float]

theorem of_ofJson? {v : Json} {s : Spot} (h : ofJson? v = some s) : s.Finite ∧ 1 ≤ v.depth := by
  simp only [ofJson?, Option.bind_eq_bind, Option.bind_eq_some_iff, Option.pure_def,
    Option.some.injEq] at h
  obtain ⟨fs, hfs, x, hx, y, hy, rfl⟩ := h
  obtain ⟨v, -, hx⟩ := Fields.exists_of_required hx
  obtain ⟨v, -, hy⟩ := Fields.exists_of_required hy
  exact ⟨⟨isFinite_of_float? hx, isFinite_of_float? hy⟩, depth_pos_of_fields? hfs⟩

end Spot

theorem MoveStyle.ofName?_name (s : MoveStyle) : ofName? s.name = some s := by
  cases s <;> rfl

namespace Command

def floats : Command → List Float
  | move m => [m.start.x, m.start.y, m.finish.x, m.finish.y, m.direction, m.facing]
  | stop s => [s.spot.x, s.spot.y, s.facing]
  | arc a => [a.start.x, a.start.y, a.center.x, a.center.y, a.degrees, a.radius, a.startBearing,
      a.finish.x, a.finish.y]

theorem legible_toJson (c : Command) : c.toJson.legible := by
  rw [toJson, legible_record_iff, List.forall_mem_cons]
  refine ⟨rfl, ?_⟩
  cases c <;>
    simp [ownMembers, text, legible, Spot.legible_toJson, legible_float, legible_word32]

theorem depth_toJson (c : Command) : c.toJson.depth ≤ 2 := by
  rw [toJson, depth_record_le_iff, List.forall_mem_cons]
  refine ⟨Nat.zero_le 1, ?_⟩
  cases c <;>
    simp [ownMembers, text, word32, count, depth, Spot.depth_toJson, depth_float]

theorem untag?_toJson (c : Command) :
    untag? "type" c.toJson = some (c.kind, record c.ownMembers) := by
  rw [toJson]
  have hkeys : ((("type", text c.kind) :: c.ownMembers).map Prod.fst).Nodup := by
    cases c with
    | move m => exact (by decide : ("type" :: moveFields).Nodup)
    | stop s => exact (by decide : ("type" :: stopFields).Nodup)
    | arc a => exact (by decide : ("type" :: arcFields).Nodup)
  exact untag?_record [] hkeys

theorem moveOfJson?_ownMembers {m : Move} (h : ∀ x ∈ floats (move m), x.isFinite) :
    moveOfJson? (record (move m).ownMembers) = some m := by
  have hfields : (record (move m).ownMembers).fields? moveFields = some (move m).ownMembers :=
    fields?_record_of_sublist (.refl _) (by decide)
  simp only [floats, List.forall_mem_cons] at h
  obtain ⟨hsx, hsy, hfx, hfy, hdirection, hfacing, -⟩ := h
  have hstyle : choice? isNothing MoveStyle.ofName? (text m.style.name) = some m.style :=
    m.style.ofName?_name
  rw [moveOfJson?, hfields]
  simp [ownMembers, Fields.required, Fields.withDefault, List.lookup,
    Spot.ofJson?_toJson ⟨hsx, hsy⟩,
    Spot.ofJson?_toJson ⟨hfx, hfy⟩, float?_float hdirection, float?_float hfacing, word32?_word32,
    hstyle]

theorem stopOfJson?_ownMembers {s : Stop} (h : ∀ x ∈ floats (stop s), x.isFinite) :
    stopOfJson? (record (stop s).ownMembers) = some s := by
  have hfields : (record (stop s).ownMembers).fields? stopFields = some (stop s).ownMembers :=
    fields?_record_of_sublist (.refl _) (by decide)
  simp only [floats, List.forall_mem_cons] at h
  obtain ⟨hx, hy, hfacing, -⟩ := h
  rw [stopOfJson?, hfields]
  simp [ownMembers, Fields.required, List.lookup, Spot.ofJson?_toJson ⟨hx, hy⟩,
    float?_float hfacing,
    word32?_word32, bool?]

theorem arcOfJson?_ownMembers {a : Arc} (h : ∀ x ∈ floats (arc a), x.isFinite) :
    arcOfJson? (record (arc a).ownMembers) = some a := by
  have hfields : (record (arc a).ownMembers).fields? arcFields = some (arc a).ownMembers :=
    fields?_record_of_sublist (.refl _) (by decide)
  simp only [floats, List.forall_mem_cons] at h
  obtain ⟨hsx, hsy, hcx, hcy, hdegrees, hradius, hbearing, hfx, hfy, -⟩ := h
  rw [arcOfJson?, hfields]
  simp [ownMembers, Fields.required, List.lookup, Spot.ofJson?_toJson ⟨hsx, hsy⟩,
    Spot.ofJson?_toJson ⟨hcx, hcy⟩, Spot.ofJson?_toJson ⟨hfx, hfy⟩, float?_float hdegrees,
    float?_float hradius, float?_float hbearing, word32?_word32]

theorem ofJson?_toJson {c : Command} (h : ∀ x ∈ c.floats, x.isFinite) :
    ofJson? c.toJson = some c := by
  have hfits : fitsTagged maxDepth c.toJson = true := by
    rw [fitsTagged, c.legible_toJson, decide_eq_true (c.depth_toJson.trans (by decide))]
    rfl
  rw [ofJson?, hfits, c.untag?_toJson]
  cases c with
  | move m => simp [kind, moveOfJson?_ownMembers h]
  | stop s => simp [kind, stopOfJson?_ownMembers h]
  | arc a => simp [kind, arcOfJson?_ownMembers h]

theorem ofText?_toText {c : Command} (h : ∀ x ∈ c.floats, x.isFinite) :
    ofText? c.toText = some c := by
  rw [ofText?, toText, Json.ofText?_toText c.legible_toJson, Option.bind_some, ofJson?_toJson h]

end Command

end MarchingDrill
