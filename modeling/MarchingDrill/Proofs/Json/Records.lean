import Mathlib
import MarchingDrill.Json.Record

/-! Records: what is written as a record, a list or a map is read back from it, and what is read
lies inside the value it is read from. -/

namespace MarchingDrill

theorem mapM_eq_some_iff {α β : Type} {f : α → Option β} {as : List α} {bs : List β} :
    as.mapM f = some bs ↔ List.Forall₂ (fun a b => f a = some b) as bs := by
  induction as generalizing bs with
  | nil => simp [eq_comm]
  | cons a as ih =>
    simp only [List.mapM_cons, Option.bind_eq_bind, Option.bind_eq_some_iff, Option.pure_def,
      Option.some.injEq, List.forall₂_cons_left_iff, ih]
    constructor
    · rintro ⟨b, hb, bs', hbs, rfl⟩
      exact ⟨b, bs', hb, hbs, rfl⟩
    · rintro ⟨b, bs', hb, hbs, rfl⟩
      exact ⟨b, hb, bs', hbs, rfl⟩

section Placed

variable {α β : Type} {read : Nat → β → Option α}

theorem mapM_zipIdx_map_of_eq_some {write : α → β} {as : List α}
    (h : ∀ i, ∀ a ∈ as, read i (write a) = some a) (start : Nat) :
    (((as.map write).zipIdx start).mapM fun b => read b.2 b.1) = some as := by
  rw [mapM_eq_some_iff]
  induction as generalizing start with
  | nil => exact .nil
  | cons a as ih =>
    rw [List.map_cons, List.zipIdx_cons]
    obtain ⟨ha, has⟩ := List.forall_mem_cons.mp fun b hb i => h i b hb
    exact .cons (ha start) (ih (fun i b hb => has b hb i) (start + 1))

theorem exists_places_of_mapM_zipIdx {bs : List β} {start : Nat} {as : List α}
    (h : ((bs.zipIdx start).mapM fun b => read b.2 b.1) = some as) :
    List.Forall₂ (fun b a => ∃ i, read i b = some a) bs as := by
  rw [mapM_eq_some_iff] at h
  induction bs generalizing start as with
  | nil =>
    cases h
    exact .nil
  | cons b bs ih =>
    rw [List.zipIdx_cons] at h
    cases h with
    | cons ha has => exact .cons ⟨start, ha⟩ (ih has)

end Placed

namespace OrderedMap

variable {κ α : Type} [DecidableEq κ]

theorem putEntry_of_notMem {k : κ} (f : Option α → α) {es : List (κ × α)}
    (h : k ∉ es.map Prod.fst) : putEntry k f es = es ++ [(k, f none)] := by
  induction es with
  | nil => rfl
  | cons e es ih =>
    rw [List.map_cons, List.mem_cons, not_or] at h
    rw [putEntry, if_neg (Ne.symm h.1), ih h.2, List.cons_append]

theorem exists_of_mem_values_ofList {es : List (κ × α)} {a : α} (h : a ∈ (ofList es).values) :
    ∃ e ∈ es, e.2 = a := by
  have hput : ∀ (k : κ) (b : α) (es : List (κ × α)),
      a ∈ (putEntry k (fun _ => b) es).map Prod.snd → a = b ∨ a ∈ es.map Prod.snd := by
    intro k b es
    induction es with
    | nil => simp [putEntry]
    | cons e es ih =>
      rw [putEntry]
      split
      · simp only [List.map_cons, List.mem_cons]
        exact Or.imp_right .inr
      · simp only [List.map_cons, List.mem_cons]
        exact fun ha => ha.elim (fun ha => .inr (.inl ha)) fun ha => (ih ha).imp_right .inr
  have hfold : ∀ (es : List (κ × α)) (m : OrderedMap κ α),
      a ∈ (es.foldl (fun m e => m.insert e.1 e.2) m).values → a ∈ m.values ∨ ∃ e ∈ es, e.2 = a := by
    intro es
    induction es with
    | nil => exact fun m ha => .inl ha
    | cons e es ih =>
      intro m ha
      obtain ha | ⟨e', he', ha⟩ := ih _ ha
      · obtain rfl | ha := hput e.1 e.2 m.entries ha
        · exact .inr ⟨e, List.mem_cons_self, rfl⟩
        · exact .inl ha
      · exact .inr ⟨e', List.mem_cons_of_mem e he', ha⟩
  obtain ha | he := hfold es empty h
  · cases ha
  · exact he

theorem ofList_entries (m : OrderedMap κ α) : ofList m.entries = m := by
  have hput : ∀ (es : List (κ × α)) (n : OrderedMap κ α),
      ((n.entries ++ es).map Prod.fst).Nodup →
        (es.foldl (fun m e => m.insert e.1 e.2) n).entries = n.entries ++ es := by
    intro es
    induction es with
    | nil => simp
    | cons e es ih =>
      intro n hn
      have hnew : e.1 ∉ n.entries.map Prod.fst := by
        rw [List.map_append, List.map_cons] at hn
        exact fun hmem => (List.nodup_append.mp hn).2.2 _ hmem _ List.mem_cons_self rfl
      have hentries : (n.insert e.1 e.2).entries = n.entries ++ [e] := putEntry_of_notMem _ hnew
      have hnext := ih (n.insert e.1 e.2)
      rw [hentries, List.append_assoc] at hnext
      exact hnext hn
  exact ext (hput m.entries empty m.distinct)

end OrderedMap

namespace Json

theorem membersNamed?_map {ms : List (String × Json)} (h : (ms.map Prod.fst).Nodup)
    (names : List String) :
    membersNamed? names (ms.map fun m => (some m.1, m.2)) = some (ms.filter (·.1 ∈ names)) := by
  induction ms with
  | nil => rfl
  | cons m ms ih =>
    rw [List.map_cons, List.nodup_cons] at h
    have hlookup : (ms.filter (·.1 ∈ names)).lookup m.1 = none := by
      rw [List.lookup_eq_none_iff]
      intro p hp
      have hne : m.1 ≠ p.1 := by
        intro heq
        exact h.1 (heq ▸ List.mem_map_of_mem (List.mem_of_mem_filter hp))
      simpa using hne
    rw [List.map_cons, membersNamed?]
    simp only [Option.bind_eq_bind, Option.bind_some, ih h.2, hlookup]
    by_cases hm : m.1 ∈ names
    · simp [hm]
    · simp [hm]

theorem fields?_record {ms : List (String × Json)} (h : (ms.map Prod.fst).Nodup)
    (names : List String) : (record ms).fields? names = some (ms.filter (·.1 ∈ names)) :=
  membersNamed?_map h names

theorem fields?_record_of_sublist {ms : List (String × Json)} {names : List String}
    (h : (ms.map Prod.fst).Sublist names) (hnames : names.Nodup) :
    (record ms).fields? names = some ms := by
  rw [fields?_record (hnames.sublist h), List.filter_eq_self.mpr]
  exact fun m hm => decide_eq_true (h.subset (List.mem_map_of_mem hm))

theorem list?_arr {α : Type} {write : α → Json} {read : Nat → Json → Option α} {as : List α}
    (h : ∀ i, ∀ a ∈ as, read i (write a) = some a) : (arr (as.map write)).list? read = some as :=
  mapM_zipIdx_map_of_eq_some h 0

theorem map?_record {κ α : Type} [DecidableEq κ] (name : κ → String) (write : α → Json)
    {key : String → Option κ} {read : Nat → Json → Option α} {m : OrderedMap κ α}
    (hkey : ∀ k ∈ m.keys, key (name k) = some k)
    (hread : ∀ i, ∀ a ∈ m.values, read i (write a) = some a) :
    (record (m.entries.map fun e => (name e.1, write e.2))).map? key read = some m := by
  let readEntry (i : Nat) (member : Option String × Json) : Option (κ × α) := do
    return (← key (← member.1), ← read i member.2)
  have hentries : ((m.entries.map fun e => (some (name e.1), write e.2)).zipIdx.mapM
      fun member => readEntry member.2 member.1) = some m.entries := by
    refine mapM_zipIdx_map_of_eq_some (fun i e he => ?_) 0
    simp [readEntry, hkey e.1 (List.mem_map_of_mem he), hread i e.2 (List.mem_map_of_mem he)]
  rw [record, List.map_map, map?]
  exact congrArg (Option.bind · fun entries => some (OrderedMap.ofList entries)) hentries |>.trans
    (congrArg some m.ofList_entries)

theorem word32?_word32 (n : UInt32) : (word32 n).word32? = some n := by
  have hbelow : (word32 n).countBelow? UInt32.size = some n.toNat :=
    if_pos (decide_eq_true n.toNat_lt)
  rw [word32?, hbelow, Option.map_some, UInt32.ofNat_toNat]

namespace Fields

variable {α : Type} {fs gs : Fields} {name : String}

theorem required_append_right (read : Json → Option α) (h : fs.lookup name = none) :
    required (fs ++ gs) name read = required gs name read := by
  rw [required, required, List.lookup_append, h, Option.none_or]

theorem withDefault_append_right (default : α) (read : Json → Option α)
    (h : fs.lookup name = none) :
    withDefault (fs ++ gs) name default read = withDefault gs name default read := by
  rw [withDefault, withDefault, List.lookup_append, h, Option.none_or]

theorem optional_append_right (read : Json → Option α) (h : fs.lookup name = none) :
    optional (fs ++ gs) name read = optional gs name read := by
  rw [optional, optional, List.lookup_append, h, Option.none_or]

theorem withDefault_of_lookup {v : Json} (default : α) (read : Json → Option α)
    (h : fs.lookup name = some v) : withDefault fs name default read = read v := by
  rw [withDefault, h]

theorem optional_of_lookup {write : α → Json} {read : Json → Option α} {o : Option α}
    (h : fs.lookup name = o.map write) (hread : ∀ a, read (write a) = some a)
    (hnull : ∀ a, write a ≠ .null) : optional fs name read = some o := by
  cases o with
  | none =>
    rw [optional, h]
    rfl
  | some a =>
    rw [optional, h, Option.map_some]
    split
    · next h => cases h
    · next h => exact absurd (Option.some.inj h) (hnull a)
    · next h =>
      cases h
      rw [hread, Option.map_some]

end Fields

section Depth

variable {n : Nat}

theorem depthList_le_iff {vs : List Json} : depthList vs ≤ n ↔ ∀ v ∈ vs, v.depth ≤ n := by
  induction vs with
  | nil => simp [depthList]
  | cons v vs ih => rw [depthList, Nat.max_le, ih, List.forall_mem_cons]

theorem depthMembers_le_iff {ms : List (Option String × Json)} :
    depthMembers ms ≤ n ↔ ∀ m ∈ ms, m.2.depth ≤ n := by
  induction ms with
  | nil => simp [depthMembers]
  | cons m ms ih => rw [depthMembers, Nat.max_le, ih, List.forall_mem_cons]

theorem depth_record_le_iff {ms : List (String × Json)} :
    (record ms).depth ≤ n + 1 ↔ ∀ m ∈ ms, m.2.depth ≤ n := by
  rw [record, depth, Nat.add_le_add_iff_right, depthMembers_le_iff, List.forall_mem_map]

theorem depth_arr_le_iff {vs : List Json} : (arr vs).depth ≤ n + 1 ↔ ∀ v ∈ vs, v.depth ≤ n := by
  rw [depth, Nat.add_le_add_iff_right, depthList_le_iff]

end Depth

theorem legibleList_iff {vs : List Json} : legibleList vs ↔ ∀ v ∈ vs, v.legible := by
  induction vs with
  | nil => simp [legibleList]
  | cons v vs ih => rw [legibleList, Bool.and_eq_true, ih, List.forall_mem_cons]

theorem legible_arr_iff {vs : List Json} : (arr vs).legible ↔ ∀ v ∈ vs, v.legible := by
  rw [legible, legibleList_iff]

theorem legible_record_iff {ms : List (String × Json)} :
    (record ms).legible ↔ ∀ m ∈ ms, m.2.legible := by
  rw [record, legible]
  induction ms with
  | nil => simp [legibleMembers]
  | cons m ms ih => simp [legibleMembers, ih]

theorem legible_optionalMember {α : Type} (name : String) {write : α → Json} {o : Option α}
    (h : ∀ a, (write a).legible) : ∀ m ∈ optionalMember name write o, m.2.legible := by
  cases o with
  | none => nofun
  | some a =>
    intro m hm
    rw [List.mem_singleton.mp hm]
    exact h a

section Reading

variable {names : List String} {fs : Fields} {v : Json}

theorem mem_of_membersNamed? {ms : List (Option String × Json)}
    (h : membersNamed? names ms = some fs) {f : String × Json} (hf : f ∈ fs) :
    (some f.1, f.2) ∈ ms := by
  induction ms generalizing fs with
  | nil =>
    cases h
    cases hf
  | cons m ms ih =>
    obtain ⟨key, v⟩ := m
    simp only [membersNamed?, Option.bind_eq_bind, Option.bind_eq_some_iff, Option.pure_def] at h
    obtain ⟨name, rfl, rest, hrest, h⟩ := h
    split at h
    · split at h
      · cases h
      · cases h
        obtain rfl | hf := List.mem_cons.mp hf
        · exact List.mem_cons_self
        · exact List.mem_cons_of_mem _ (ih hrest hf)
    · cases h
      exact List.mem_cons_of_mem _ (ih hrest hf)

theorem exists_of_list? {α : Type} {read : Nat → Json → Option α} {as : List α}
    (h : v.list? read = some as) :
    ∃ items, v = .arr items ∧ List.Forall₂ (fun item a => ∃ i, read i item = some a) items as := by
  cases v with
  | arr items => exact ⟨items, rfl, exists_places_of_mapM_zipIdx h⟩
  | null | bool | num | str | obj => cases h

section Placed

variable {α : Type} {read : Nat → Json → Option α} {a : α}

theorem forall_mem_of_list? {P : α → Prop} (hitem : ∀ i v a, read i v = some a → P a) {as : List α}
    (h : v.list? read = some as) : ∀ a ∈ as, P a := by
  obtain ⟨items, -, hitems⟩ := exists_of_list? h
  clear h
  induction hitems with
  | nil => exact List.forall_mem_nil _
  | cons ha _ ih =>
    obtain ⟨i, ha⟩ := ha
    exact List.forall_mem_cons.mpr ⟨hitem i _ _ ha, ih⟩

theorem depth_arr_of_list? {write : α → Json}
    (hitem : ∀ i v a, read i v = some a → (write a).depth ≤ v.depth) {as : List α}
    (h : v.list? read = some as) : (arr (as.map write)).depth ≤ v.depth := by
  obtain ⟨items, rfl, hitems⟩ := exists_of_list? h
  rw [depth, depth, Nat.add_le_add_iff_right]
  clear h
  induction hitems with
  | nil => exact Nat.le_refl _
  | cons ha _ ih =>
    obtain ⟨i, ha⟩ := ha
    rw [List.map_cons, depthList, depthList]
    exact max_le_max (hitem i _ _ ha) ih

theorem exists_of_mem_values_map? {κ : Type} [DecidableEq κ] {key : String → Option κ}
    {m : OrderedMap κ α} (h : v.map? key read = some m) (ha : a ∈ m.values) :
    ∃ i w, read i w = some a := by
  cases v with
  | obj members =>
    simp only [map?, Option.bind_eq_bind, Option.bind_eq_some_iff, Option.pure_def,
      Option.some.injEq, mapM_eq_some_iff] at h
    obtain ⟨es, hes, rfl⟩ := h
    obtain ⟨e, he, rfl⟩ := OrderedMap.exists_of_mem_values_ofList ha
    clear ha
    generalize members.zipIdx = placed at hes
    induction hes with
    | nil => cases he
    | cons hentry _ ih =>
      obtain rfl | he := List.mem_cons.mp he
      · obtain ⟨-, -, k, -, a, hread, rfl⟩ := hentry
        exact ⟨_, _, hread⟩
      · exact ih he
  | null | bool | num | str | arr => cases h

end Placed

theorem depth_pos_of_fields? (h : v.fields? names = some fs) : 1 ≤ v.depth := by
  cases v with
  | obj | arr => exact Nat.succ_pos _
  | null | bool | num | str => cases h

variable {α : Type} {name : String} {read : Json → Option α} {a : α}

theorem Fields.exists_of_required (h : fs.required name read = some a) :
    ∃ v, (name, v) ∈ fs ∧ read v = some a := by
  obtain ⟨v, hv, hread⟩ := Option.bind_eq_some_iff.mp h
  obtain ⟨front, rest, rfl, -⟩ := List.lookup_eq_some_iff.mp hv
  exact ⟨v, by simp, hread⟩

theorem Fields.exists_of_withDefault {default : α}
    (h : fs.withDefault name default read = some a) :
    a = default ∨ ∃ v, (name, v) ∈ fs ∧ read v = some a := by
  rw [withDefault] at h
  split at h
  · exact .inl (Option.some.inj h).symm
  · next v hv => exact .inr (exists_of_required (Option.bind_eq_some_iff.mpr ⟨v, hv, h⟩))

end Reading

end Json

end MarchingDrill
