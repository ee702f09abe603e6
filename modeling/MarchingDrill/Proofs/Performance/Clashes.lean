import MarchingDrill.Proofs.Json.Records
import MarchingDrill.Proofs.Performance.OnSheet
import MarchingDrill.Proofs.Show.Reloading

/-! Clashes: the search for dots that come too close finds all of them and no others, beat by beat,
and lists what it finds in the order of the show. -/

namespace MarchingDrill

open Binary64

section Search

variable {radius : Float} {dots : List DotId}

theorem clashFlags_getElem? (before ps : List (Option Pose)) (i : Nat) :
    (clashFlags radius before ps)[i]? = ps[i]?.map fun p =>
      before.any (tooClose radius · p) || (ps.take i).any (tooClose radius · p) ||
        (ps.drop (i + 1)).any (tooClose radius p ·) := by
  induction ps generalizing before i with
  | nil => rfl
  | cons p ps ih =>
    cases i with
    | zero => simp [clashFlags]
    | succ i =>
      rw [clashFlags, List.getElem?_cons_succ, List.getElem?_cons_succ, ih]
      simp only [List.any_cons, List.take_succ_cons, List.drop_succ_cons, Bool.or_left_comm,
        Bool.or_assoc]

theorem exists_mem_take_iff {α : Type} {as : List α} {i : Nat} {P : α → Prop} :
    (∃ a ∈ as.take i, P a) ↔ ∃ (j : Nat) (a : α), as[j]? = some a ∧ j < i ∧ P a := by
  simp only [List.mem_iff_getElem?, List.getElem?_take]
  constructor
  · rintro ⟨a, ⟨j, hj⟩, ha⟩
    split at hj
    · next hlt => exact ⟨j, a, hj, hlt, ha⟩
    · cases hj
  · rintro ⟨j, a, hj, hlt, ha⟩
    exact ⟨a, ⟨j, by rw [if_pos hlt, hj]⟩, ha⟩

theorem exists_mem_drop_iff {α : Type} {as : List α} {i : Nat} {P : α → Prop} :
    (∃ a ∈ as.drop i, P a) ↔ ∃ (j : Nat) (a : α), as[j]? = some a ∧ i ≤ j ∧ P a := by
  simp only [List.mem_iff_getElem?, List.getElem?_drop]
  constructor
  · rintro ⟨a, ⟨j, hj⟩, ha⟩
    exact ⟨i + j, a, hj, Nat.le_add_right i j, ha⟩
  · rintro ⟨j, a, hj, hle, ha⟩
    exact ⟨a, ⟨j - i, by rwa [Nat.add_sub_of_le hle]⟩, ha⟩

theorem clashFlags_iff (pose : DotId → Option Pose) (i : Nat) :
    (clashFlags radius [] (dots.map pose)).getD i false = true ↔
      ∃ (j : Nat) (dot other : DotId), dots[i]? = some dot ∧ dots[j]? = some other ∧
        (j < i ∧ tooClose radius (pose other) (pose dot) = true ∨
          i < j ∧ tooClose radius (pose dot) (pose other) = true) := by
  rw [List.getD_eq_getElem?_getD, clashFlags_getElem?, List.getElem?_map]
  cases hdot : dots[i]? with
  | none => simp
  | some dot =>
    simp only [Option.map_some, Option.getD_some, List.any_nil, Bool.false_or, Bool.or_eq_true,
      ← List.map_take, ← List.map_drop, List.any_map, List.any_eq_true, Function.comp_apply,
      exists_mem_take_iff, exists_mem_drop_iff, Option.some.injEq]
    constructor
    · rintro (⟨j, other, hj, h⟩ | ⟨j, other, hj, h⟩)
      · exact ⟨j, dot, other, rfl, hj, .inl h⟩
      · exact ⟨j, dot, other, rfl, hj, .inr h⟩
    · rintro ⟨j, _, other, rfl, hj, h | h⟩
      · exact .inl ⟨j, other, hj, h⟩
      · exact .inr ⟨j, other, hj, h⟩

theorem mem_wholeBeats {beats b : UInt32} : b ∈ wholeBeats beats ↔ b < beats := by
  rw [wholeBeats, List.mem_map, UInt32.lt_iff_toNat_lt]
  constructor
  · rintro ⟨n, hn, rfl⟩
    have hlt := List.mem_range.mp hn
    rwa [UInt32.toNat_ofNat_of_lt' (hlt.trans beats.toNat_lt)]
  · intro h
    exact ⟨b.toNat, List.mem_range.mpr h, UInt32.ofNat_toNat⟩

theorem pairwise_wholeBeats (beats : UInt32) : (wholeBeats beats).Pairwise (· < ·) := by
  rw [wholeBeats, List.pairwise_map]
  refine List.pairwise_lt_range.imp_of_mem fun {m n} hm hn hlt => ?_
  have hsize := beats.toNat_lt
  rw [List.mem_range] at hm hn
  rwa [UInt32.lt_iff_toNat_lt, UInt32.toNat_ofNat_of_lt' (hm.trans hsize),
    UInt32.toNat_ofNat_of_lt' (hn.trans hsize)]

theorem beatsAt_map (beats : List UInt32) (flags : UInt32 → List Bool) (place : Nat) :
    beatsAt (beats.map fun b => (b, flags b)) place =
      beats.filter fun b => (flags b).getD place false := by
  rw [beatsAt, List.filter_map, List.map_map]
  exact List.map_id _

theorem mem_clashesOn {tracks : List Track} {sheet : SheetId} {beats : UInt32} {dot : DotId}
    {bs : List UInt32} : (dot, bs) ∈ clashesOn tracks sheet beats radius ↔ bs ≠ [] ∧
      ∃ i, (tracks.map Track.dot)[i]? = some dot ∧ bs = (wholeBeats beats).filter fun b =>
        (clashFlags radius [] (posesOn tracks sheet b)).getD i false := by
  simp only [clashesOn, beatsAt_map, List.mem_filter, List.mem_map, Prod.exists,
    List.mem_zipIdx_iff_getElem?, List.getElem?_map, Option.map_eq_some_iff, Prod.mk.injEq]
  constructor
  · rintro ⟨⟨t, i, ht, rfl, rfl⟩, hne⟩
    exact ⟨by simpa using hne, i, ⟨t, ht, rfl⟩, rfl⟩
  · rintro ⟨hne, i, ⟨t, ht, rfl⟩, rfl⟩
    exact ⟨⟨t, i, ht, rfl, rfl⟩, by simpa using hne⟩

theorem map_fst_clashesOn_sublist (tracks : List Track) (sheet : SheetId) (beats : UInt32)
    (radius : Float) :
    ((clashesOn tracks sheet beats radius).map Prod.fst).Sublist (tracks.map Track.dot) := by
  have hnames : tracks.map Track.dot = tracks.zipIdx.map (Track.dot ∘ Prod.fst) := by
    rw [← List.map_map, List.zipIdx_map_fst]
  have hsub := List.Sublist.map Prod.fst
    (List.filter_sublist : (clashesOn tracks sheet beats radius).Sublist _)
  rw [List.map_map] at hsub
  rw [hnames]
  exact hsub

end Search

namespace Performance

def Meet (p : Performance) (sheet : SheetId) (radius : Float) (beat : UInt32) (dot other : DotId) :
    Prop :=
  ∃ a b, p.poseOn? sheet beat dot = some a ∧ p.poseOn? sheet beat other = some b ∧
    (a.spot.x - b.spot.x).abs ≤ radius ∧ (a.spot.y - b.spot.y).abs ≤ radius

/-- The dot at a place of a list meets another one of the list, the one in front being named
first. -/
def Clash (p : Performance) (dots : List DotId) (sheet : SheetId) (radius : Float) (beat : UInt32)
    (place : Nat) : Prop :=
  ∃ (j : Nat) (dot other : DotId), dots[place]? = some dot ∧ dots[j]? = some other ∧
    (j < place ∧ p.Meet sheet radius beat other dot ∨
      place < j ∧ p.Meet sheet radius beat dot other)

/-- The entries for a sheet are exact. A dot has one just when it clashes on one of the sheet's
whole beats, its last one aside, and then the entry lists all beats on which it does, each of them
once. -/
structure ClashesFound (p : Performance) (dots : List DotId) (t : Sheet) (radius : Float) :
    Prop where
  entry_iff {i : Nat} {dot : DotId} (hi : dots[i]? = some dot) :
    (∃ bs, (dot, bs) ∈ p.clashes t.id radius) ↔ ∃ b < t.beats, p.Clash dots t.id radius b i
  increasing {i : Nat} {dot : DotId} {bs : List UInt32} (hi : dots[i]? = some dot)
    (hbs : (dot, bs) ∈ p.clashes t.id radius) : bs.Pairwise (· < ·)
  mem_iff {i : Nat} {dot : DotId} {bs : List UInt32} (hi : dots[i]? = some dot)
    (hbs : (dot, bs) ∈ p.clashes t.id radius) (b : UInt32) :
    b ∈ bs ↔ b < t.beats ∧ p.Clash dots t.id radius b i

theorem tooClose_iff {p : Performance} {sheet : SheetId} {radius : Float} {beat : UInt32}
    {dot other : DotId} :
    tooClose radius (p.poseOn? sheet beat dot) (p.poseOn? sheet beat other) = true ↔
      p.Meet sheet radius beat dot other := by
  rw [Meet]
  cases p.poseOn? sheet beat dot with
  | none => simp [tooClose]
  | some a =>
    cases p.poseOn? sheet beat other with
    | none => simp [tooClose]
    | some b => simp [tooClose, Spot.near]

theorem clashFlags_poseOn?_iff {p : Performance} {dots : List DotId} {sheet : SheetId}
    {radius : Float} {beat : UInt32} {place : Nat} :
    (clashFlags radius [] (dots.map (p.poseOn? sheet beat))).getD place false = true ↔
      p.Clash dots sheet radius beat place := by
  simp only [clashFlags_iff, tooClose_iff, Clash]

end Performance

namespace Show

/-- The poses of a dot that are compared on a sheet are those of the show, provided that it fits in
32 bits, but for the first beat of the sheet, where it is the one from which it starts its commands.
-/
structure ComparesPoses (s : Show) (p : Performance) (t : Sheet) (span : Span) (dot : DotId) :
    Prop where
  first : p.poseOn? t.id 0 dot = (p.segment? dot t.id).bind fun g =>
    g.commands.head?.bind (·.poseAt? (0 : UInt32).toFloat)
  later (hfit : exactSum (s.sheets.map Sheet.beats) < 2 ^ 32) {b : UInt32} {beat : Float}
    (hfirst : 1 ≤ b) (hlast : b < t.beats) (hn : IsWhole beat (span.start.toNat + b.toNat)) :
    p.poseOn? t.id b dot = p.poseAt? dot beat

variable {s : Show} {settings : Settings}

theorem posesOn_perform (settings : Settings) (hdots : s.dotIds.Nodup) (sheet : SheetId)
    (beat : UInt32) : posesOn (s.perform settings).tracks sheet beat =
      s.dotIds.map ((s.perform settings).poseOn? sheet beat) := by
  rw [posesOn, perform_tracks, List.map_map]
  refine List.map_congr_left fun dot hdot => ?_
  rw [Performance.poseOn?, Performance.segment?, track?_perform settings hdots hdot]
  rfl

section Entries

variable (hdots : s.dotIds.Nodup) (hsheets : s.sheetIds.Nodup) {t : Sheet} (ht : t ∈ s.sheets)
  (radius : Float)
include hsheets ht

theorem clashes_perform : (s.perform settings).clashes t.id radius =
    clashesOn (s.perform settings).tracks t.id t.beats radius := by
  obtain ⟨span, hspan, hbeats⟩ := exists_span settings hsheets ht
  rw [Performance.clashes, hspan, Option.elim_some, hbeats]

include hdots

theorem mem_clashes_perform {i : Nat} {dot : DotId} (hi : s.dotIds[i]? = some dot)
    {bs : List UInt32} : (dot, bs) ∈ (s.perform settings).clashes t.id radius ↔
      bs ≠ [] ∧ bs = (wholeBeats t.beats).filter fun b =>
        (clashFlags radius [] (s.dotIds.map ((s.perform settings).poseOn? t.id b))).getD i
          false := by
  simp only [clashes_perform hsheets ht, mem_clashesOn, map_dot_perform,
    posesOn_perform settings hdots]
  refine and_congr_right fun _ => ⟨?_, fun h => ⟨i, hi, h⟩⟩
  rintro ⟨j, hj, h⟩
  have hij : j = i :=
    (List.getElem?_inj (List.getElem?_eq_some_iff.mp hj).1 hdots).mp (hj.trans hi.symm)
  exact hij ▸ h

end Entries

theorem clashesFound (settings : Settings) (hdots : s.dotIds.Nodup) (hsheets : s.sheetIds.Nodup)
    {t : Sheet} (ht : t ∈ s.sheets) (radius : Float) :
    (s.perform settings).ClashesFound s.dotIds t radius := by
  have hflagged {i : Nat} {b : UInt32} : b ∈ (wholeBeats t.beats).filter (fun b =>
      (clashFlags radius [] (s.dotIds.map ((s.perform settings).poseOn? t.id b))).getD i false) ↔
        b < t.beats ∧ (s.perform settings).Clash s.dotIds t.id radius b i := by
    rw [List.mem_filter, mem_wholeBeats, Performance.clashFlags_poseOn?_iff]
  have hentry {i : Nat} {dot : DotId} (hi : s.dotIds[i]? = some dot) {bs : List UInt32} :
      (dot, bs) ∈ (s.perform settings).clashes t.id radius ↔ _ :=
    mem_clashes_perform hdots hsheets ht radius hi
  refine ⟨fun {i dot} hi => ⟨?_, ?_⟩, fun {i dot bs} hi hbs => ?_, fun {i dot bs} hi hbs b => ?_⟩
  · rintro ⟨bs, hbs⟩
    obtain ⟨hne, rfl⟩ := (hentry hi).mp hbs
    obtain ⟨b, hb⟩ := List.exists_mem_of_ne_nil _ hne
    exact ⟨b, hflagged.mp hb⟩
  · rintro ⟨b, hb⟩
    exact ⟨_, (hentry hi).mpr ⟨List.ne_nil_of_mem (hflagged.mpr hb), rfl⟩⟩
  · obtain ⟨-, rfl⟩ := (hentry hi).mp hbs
    exact (pairwise_wholeBeats t.beats).filter _
  · obtain ⟨-, rfl⟩ := (hentry hi).mp hbs
    exact hflagged

theorem map_fst_clashes_sublist (s : Show) (settings : Settings) (sheet : SheetId)
    (radius : Float) :
    (((s.perform settings).clashes sheet radius).map Prod.fst).Sublist s.dotIds := by
  rw [Performance.clashes, ← map_dot_perform s settings]
  cases (s.perform settings).span? sheet with
  | none => exact List.nil_sublist _
  | some span => exact map_fst_clashesOn_sublist ..

theorem detected_perform (settings : Settings) (hsheets : s.sheetIds.Nodup) (sheet : SheetId) :
    (s.perform settings).detected.get? sheet =
      if settings.detectCollisions = true ∧ sheet ∈ s.sheetIds then
        some ((s.perform settings).clashes sheet settings.collisionRadius)
      else none := by
  by_cases hdetect : settings.detectCollisions = true
  · obtain ⟨p, hp, hspans⟩ : ∃ p : Performance,
        s.perform settings = p.withClashes settings.collisionRadius ∧
          p.spans.map Span.sheet = s.sheetIds := by
      refine ⟨_, if_pos hdetect, ?_⟩
      exact map_sheet_spansFrom s 0 s.sheetIds
    let found : OrderedMap SheetId Clashes :=
      ⟨s.sheetIds.map fun id => (id, p.clashes id settings.collisionRadius), by
        rw [List.map_map]
        exact (List.map_id s.sheetIds).symm ▸ hsheets⟩
    have hfound : (p.withClashes settings.collisionRadius).detected = found := by
      rw [← OrderedMap.ofList_entries found]
      refine congrArg OrderedMap.ofList ?_
      change _ = s.sheetIds.map fun id => (id, p.clashes id settings.collisionRadius)
      rw [← hspans, List.map_map]
      rfl
    rw [hp, hfound]
    change (s.sheetIds.map fun id => (id, p.clashes id settings.collisionRadius)).lookup sheet = _
    split
    · next h => exact List.lookup_graph _ h.2
    · next h =>
      rw [List.lookup_eq_none_iff, List.forall_mem_map]
      intro id hid
      simpa using fun heq : sheet = id => h ⟨hdetect, heq ▸ hid⟩
  · rw [if_neg fun h => hdetect h.1, perform, if_neg hdetect]
    rfl

/-- The search for clashes on a sheet is exact, and its entries stand in the order of the show. -/
theorem clashes_exact {names : Names} {doc : String} {s : Show} (settings : Settings)
    (hread : ofText names doc = .ok s) (radius : Float) :
    let p := s.perform settings
    (∀ t ∈ s.sheets, p.ClashesFound s.dotIds t radius) ∧
    (∀ sheet, ((p.clashes sheet radius).map Prod.fst).Sublist s.dotIds ∧
      (sheet ∉ s.sheetIds → p.clashes sheet radius = [])) ∧
    (∀ t ∈ s.sheets, ∃ span, p.span? t.id = some span ∧ span.beats = t.beats ∧
      ∀ dot, s.ComparesPoses p t span dot) ∧
    ∀ sheet, p.detected.get? sheet =
      if settings.detectCollisions = true ∧ sheet ∈ s.sheetIds then
        some (p.clashes sheet settings.collisionRadius)
      else none := by
  intro p
  have hvalid := validate_of_ofText hread
  have hdots := dotIds_nodup hvalid
  have hsheets := sheetIds_nodup hvalid
  refine ⟨fun t ht => clashesFound settings hdots hsheets ht radius, fun sheet => ⟨?_, ?_⟩,
    fun t ht => ?_, detected_perform settings hsheets⟩
  · exact map_fst_clashes_sublist s settings sheet radius
  · intro hsheet
    rw [Performance.clashes, span?_perform_of_notMem settings hsheet, Option.elim_none]
  · obtain ⟨span, hspan, hbeats⟩ := exists_span settings hsheets ht
    refine ⟨span, hspan, hbeats, fun dot => ⟨?_, ?_⟩⟩
    · exact Option.bind_congr fun g _ => g.poseAt?_zero
    · intro hfit b beat hfirst hlast hn
      exact poseOn?_eq_poseAt? settings hdots hsheets hfit ht hspan dot hfirst hlast hn

def crowdedSheet (id beats : UInt32) : Sheet :=
  { Sheet.blank ⟨id⟩ "" beats with
    positions := ⟨[(⟨"A"⟩, ⟨⟨0, 0⟩, .plain⟩), (⟨"B"⟩, ⟨⟨0, 0⟩, .plain⟩)], by decide⟩ }

def crowdedShow (last : UInt32) : Show :=
  ⟨"u", 1, .east, [⟨⟨"A"⟩, ""⟩, ⟨⟨"B"⟩, ""⟩], [crowdedSheet 0 8, crowdedSheet 1 last], ⟨2⟩⟩

theorem forall_mem_crowdedShow {P : Sheet → Prop} (h : ∀ id beats, P (crowdedSheet id beats))
    (last : UInt32) : ∀ t ∈ (crowdedShow last).sheets, P t :=
  List.forall_mem_cons.mpr ⟨h 0 8, List.forall_mem_singleton.mpr (h 1 last)⟩

theorem stored_crowdedShow (last : UInt32) : (crowdedShow last).Stored where
  valid := by
    have hdots : (crowdedShow last).dotIds = [⟨"A"⟩, ⟨"B"⟩] := rfl
    have hids : (crowdedShow last).sheetIds = [⟨0⟩, ⟨1⟩] := rfl
    refine ⟨UInt32.le_refl 1, hdots ▸ by decide, hids ▸ by decide, ?_⟩
    exact forall_mem_crowdedShow (fun id beats => ⟨nofun, fun dot hdot => hdot, nofun⟩) last
  storable := by
    refine forall_mem_crowdedShow (fun id beats => ⟨?_, nofun, nofun⟩) last
    exact List.forall_mem_cons.mpr ⟨by decide, List.forall_mem_singleton.mpr (by decide)⟩
  filed := forall_mem_crowdedShow (fun id beats => rfl) last
  counter := rfl

theorem clashes_exact_for_pair : ∃ s, ofText (.same "c") (crowdedShow 8).toText = .ok s ∧
    ∃ bs, (⟨"B"⟩, bs) ∈ (s.perform .standard).clashes ⟨1⟩ 1 ∧ 6 ∈ bs ∧
      bs.Pairwise (· < ·) ∧ (s.perform .standard).poseOn? ⟨1⟩ 6 ⟨"B"⟩ =
        (s.perform .standard).poseAt? ⟨"B"⟩ (14 : UInt32).toFloat := by
  have hread := (stored_crowdedShow 8).reads_back (.same "c")
  have hsecond : crowdedSheet 1 8 ∈ (crowdedShow 8).sheets :=
    List.mem_cons_of_mem _ List.mem_cons_self
  have hpose : ∀ dot ∈ [⟨"A"⟩, ⟨"B"⟩],
      ((crowdedShow 8).perform .standard).poseOn? ⟨1⟩ 6 dot = some ⟨⟨0, 0⟩, 0⟩ := by
    decide +kernel
  have hclash : ((crowdedShow 8).perform .standard).Clash (crowdedShow 8).dotIds ⟨1⟩ 1 6 1 := by
    refine ⟨0, ⟨"B"⟩, ⟨"A"⟩, rfl, rfl, .inl ⟨Nat.zero_lt_one, _, _, hpose _ ?_, hpose _ ?_, ?_⟩⟩
    · decide
    · decide
    · decide +kernel
  obtain ⟨hentries, -, hposes, -⟩ := clashes_exact .standard hread 1
  have hfound := hentries _ hsecond
  have hB : (crowdedShow 8).dotIds[1]? = some ⟨"B"⟩ := rfl
  obtain ⟨bs, hbs⟩ := (hfound.entry_iff hB).mpr ⟨6, by decide, hclash⟩
  obtain ⟨span, hspan, -, hsame⟩ := hposes _ hsecond
  have hstart : span.start.toNat = 8 := by
    cases hspan
    rfl
  refine ⟨_, hread, bs, hbs, (hfound.mem_iff hB hbs 6).mpr ⟨by decide, hclash⟩,
    hfound.increasing hB hbs, ?_⟩
  refine (hsame ⟨"B"⟩).later (by decide) (by decide) (by decide) ?_
  rw [hstart]
  exact .of_toFloat 14

/-- The proviso is needed. With 2^32 - 3 beats on the second sheet the total wraps around to 5, and
the show has no pose any more for the sixth beat of the first sheet, on which the dots clash. -/
theorem clash_without_pose : ∃ s, ofText (.same "c") (crowdedShow 4294967293).toText = .ok s ∧
    let p := s.perform .standard
    p.span? ⟨0⟩ = some ⟨⟨0⟩, 0, 8⟩ ∧ (⟨"A"⟩, [0, 1, 2, 3, 4, 5, 6, 7]) ∈ p.clashes ⟨0⟩ 1 ∧
    IsWhole (6 : UInt32).toFloat 6 ∧ (p.poseOn? ⟨0⟩ 6 ⟨"A"⟩).isSome ∧
    p.poseOn? ⟨0⟩ 6 ⟨"A"⟩ ≠ p.poseAt? ⟨"A"⟩ (6 : UInt32).toFloat := by
  have hclash : (⟨"A"⟩, [0, 1, 2, 3, 4, 5, 6, 7]) ∈
      ((crowdedShow 4294967293).perform .standard).clashes ⟨0⟩ 1 := by
    decide +kernel
  have hpose : ((crowdedShow 4294967293).perform .standard).poseOn? ⟨0⟩ 6 ⟨"A"⟩ =
      some ⟨⟨0, 0⟩, 0⟩ := by
    decide +kernel
  have hnone : ((crowdedShow 4294967293).perform .standard).poseAt? ⟨"A"⟩ (6 : UInt32).toFloat =
      none := by
    decide +kernel
  refine ⟨_, (stored_crowdedShow 4294967293).reads_back (.same "c"), rfl, hclash, .of_toFloat 6,
    ?_, ?_⟩
  · rw [hpose]
    rfl
  · rw [hpose, hnone]
    exact Option.some_ne_none _

end Show

end MarchingDrill
