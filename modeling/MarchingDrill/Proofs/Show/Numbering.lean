import MarchingDrill.Proofs.Show.Storage
import MarchingDrill.Show.Editing

/-! Numbering: the numbers that sheets get when they are added to a show that has been read. They go
up from one past the numbers of its document, but the largest number there is has no next one and
sends the counter back to zero, from where it comes upon numbers that are taken. -/

namespace MarchingDrill

def SheetId.top : SheetId := ⟨4294967295⟩

/-- The numbers that are listed behind the last sheet that bears the largest number, last to first.
Without such a sheet they are all numbers. -/
def behindTop (ids : List SheetId) : List SheetId := ids.reverse.takeWhile (· ≠ .top)

def onePast (ids : List SheetId) : Nat := ids.foldr (fun id n => max (id.number.toNat + 1) n) 0

def Show.addSheets : Show → List (String × UInt32) → List SheetId × Show
  | s, [] => ([], s)
  | s, (label, beats) :: requests =>
    let (id, next) := s.addSheet label beats
    let (ids, last) := next.addSheets requests
    (id :: ids, last)

theorem SheetId.toNat_inj {m n : SheetId} : m.number.toNat = n.number.toNat ↔ m = n := by
  rw [UInt32.toNat_inj, ← SheetId.mk.injEq]

theorem ne_top_iff (id : SheetId) : id ≠ .top ↔ id.number.toNat + 1 < 2 ^ 32 := by
  have hlt := id.number.toNat_lt
  have htop : id = .top ↔ id.number.toNat = 4294967295 := by
    rw [SheetId.top, SheetId.mk.injEq, ← UInt32.toNat_inj]
    rfl
  rw [Ne, htop]
  omega

theorem lt_onePast {ids : List SheetId} {id : SheetId} (h : id ∈ ids) :
    id.number.toNat < onePast ids := by
  induction ids with
  | nil => cases h
  | cons first ids ih =>
    rw [onePast, List.foldr_cons, ← onePast]
    rcases List.mem_cons.mp h with rfl | hmem
    · exact Nat.lt_of_succ_le (Nat.le_max_left _ _)
    · exact (ih hmem).trans_le (Nat.le_max_right _ _)

theorem behindTop_of_ne {ids : List SheetId} (h : ∀ id ∈ ids, id ≠ .top) :
    behindTop ids = ids.reverse := by
  rw [behindTop, List.takeWhile_eq_self_iff]
  intro id hid
  exact decide_eq_true (h id (List.mem_reverse.mp hid))

/-- The counter of a show that has been read: each number of the document in turn takes it one past
itself, unless it is there already, and the largest number takes it to zero. -/
theorem toNat_next_skip (ids : List SheetId) :
    (ids.foldl SheetCounter.skip .start).next.toNat = onePast (behindTop ids) := by
  induction ids using List.reverseRecOn with
  | nil => rfl
  | append_singleton ids id ih =>
    have hlt := id.number.toNat_lt
    have hcounter := (ids.foldl SheetCounter.skip .start).next.toNat_lt
    rw [List.foldl_concat, SheetCounter.skip, behindTop, List.reverse_concat]
    by_cases htop : id = .top
    · have hle : (ids.foldl SheetCounter.skip .start).next ≤ id.number := by
        rw [UInt32.le_iff_toNat_le, htop]
        exact Nat.le_of_lt_succ hcounter
      rw [if_pos hle, List.takeWhile_cons_of_neg (by simp [htop]), htop]
      rfl
    · have hsucc : (id.number + 1).toNat = id.number.toNat + 1 := by
        rw [UInt32.toNat_add]
        exact Nat.mod_eq_of_lt ((ne_top_iff id).mp htop)
      rw [List.takeWhile_cons_of_pos (by simp [htop]), ← behindTop, onePast, List.foldr_cons,
        ← onePast, ← ih]
      by_cases hle : (ids.foldl SheetCounter.skip .start).next ≤ id.number
      · rw [if_pos hle]
        have hle' := UInt32.le_iff_toNat_le.mp hle
        rw [hsucc, Nat.max_eq_left (by omega)]
      · rw [if_neg hle]
        have hgt : ¬_ ≤ _ := fun h => hle (UInt32.le_iff_toNat_le.mpr h)
        rw [Nat.max_eq_right (by omega)]

namespace Show

variable {s : Show}

theorem addSheets_cons (s : Show) (label : String) (beats : UInt32)
    (requests : List (String × UInt32)) :
    s.addSheets ((label, beats) :: requests) =
      (⟨s.counter.next⟩ :: ((s.addSheet label beats).2.addSheets requests).1,
        ((s.addSheet label beats).2.addSheets requests).2) := rfl

theorem addSheets_numbers (s : Show) (requests : List (String × UInt32)) :
    (s.addSheets requests).1.map (·.number.toNat) =
        (List.range requests.length).map (fun i => (s.counter.next.toNat + i) % 2 ^ 32) ∧
      (s.addSheets requests).2.sheetIds = s.sheetIds ++ (s.addSheets requests).1 := by
  induction requests generalizing s with
  | nil => exact ⟨rfl, (List.append_nil _).symm⟩
  | cons request requests ih =>
    obtain ⟨label, beats⟩ := request
    obtain ⟨hnumbers, hids⟩ := ih (s.addSheet label beats).2
    have hnext : (s.addSheet label beats).2.counter.next.toNat =
        (s.counter.next.toNat + 1) % 2 ^ 32 := UInt32.toNat_add ..
    have hsheets : (s.addSheet label beats).2.sheetIds = s.sheetIds ++ [⟨s.counter.next⟩] :=
      List.map_append
    rw [addSheets_cons]
    constructor
    · have hlt := s.counter.next.toNat_lt
      rw [List.map_cons, hnumbers, List.length_cons, List.range_succ_eq_map, List.map_cons,
        List.map_map, Nat.add_zero, Nat.mod_eq_of_lt hlt, hnext]
      congr 1
      apply List.map_congr_left
      intro i _
      rw [Function.comp_apply, Nat.mod_add_mod]
      congr 1
      omega
    · rw [hids, hsheets, List.append_assoc]
      rfl

theorem length_addSheets (s : Show) (requests : List (String × UInt32)) :
    (s.addSheets requests).1.length = requests.length := by
  simpa using congrArg List.length (s.addSheets_numbers requests).1

theorem mem_addSheets_iff {requests : List (String × UInt32)} {id : SheetId} :
    id ∈ (s.addSheets requests).1 ↔
      ∃ i < requests.length, id.number.toNat = (s.counter.next.toNat + i) % 2 ^ 32 := by
  have hinj : Function.Injective fun id : SheetId => id.number.toNat :=
    fun _ _ => SheetId.toNat_inj.mp
  rw [← List.mem_map_of_injective hinj, (s.addSheets_numbers requests).1, List.mem_map]
  simp only [List.mem_range, eq_comm]

theorem nodup_addSheets {requests : List (String × UInt32)} (hroom : requests.length ≤ 2 ^ 32) :
    (s.addSheets requests).1.Nodup := by
  refine List.Nodup.of_map (·.number.toNat) ?_
  rw [(s.addSheets_numbers requests).1]
  refine List.Nodup.map_on ?_ List.nodup_range
  intro i hi j hj h
  rw [List.mem_range] at hi hj
  omega

section Added

variable {requests : List (String × UInt32)} {i : Nat} {id : SheetId}

theorem number_addSheets (h : (s.addSheets requests).1[i]? = some id) :
    id.number.toNat = (s.counter.next.toNat + i) % 2 ^ 32 := by
  obtain ⟨hi, rfl⟩ := List.getElem?_eq_some_iff.mp h
  have hget := List.getElem_of_eq (s.addSheets_numbers requests).1 (by simpa using hi)
  rwa [List.getElem_map, List.getElem_map, List.getElem_range] at hget

theorem mem_before_added_iff (hroom : requests.length ≤ 2 ^ 32)
    (h : (s.addSheets requests).1[i]? = some id) :
    id ∈ s.sheetIds ++ (s.addSheets requests).1.take i ↔
      ∃ t ∈ s.sheets, t.id.number.toNat = id.number.toNat := by
  obtain ⟨hi, rfl⟩ := List.getElem?_eq_some_iff.mp h
  have hfresh : (s.addSheets requests).1[i] ∉ (s.addSheets requests).1.take i := by
    rw [List.mem_take_iff_getElem]
    rintro ⟨j, hj, heq⟩
    have hsame := (nodup_addSheets hroom).getElem_inj_iff.mp heq
    omega
  rw [List.mem_append, or_iff_left hfresh, sheetIds, List.mem_map]
  simp only [SheetId.toNat_inj]

theorem nodup_added_iff (hold : s.sheetIds.Nodup) (hroom : requests.length ≤ 2 ^ 32) :
    (s.addSheets requests).2.sheetIds.Nodup ↔ ∀ t ∈ s.sheets, ∀ i < requests.length,
      t.id.number.toNat ≠ (s.counter.next.toNat + i) % 2 ^ 32 := by
  rw [(s.addSheets_numbers requests).2]
  constructor
  · intro h t ht i hi heq
    have hadded : t.id ∈ (s.addSheets requests).1 := mem_addSheets_iff.mpr ⟨i, hi, heq⟩
    exact List.disjoint_of_nodup_append h (List.mem_map_of_mem ht) hadded
  · intro h
    refine hold.append (nodup_addSheets hroom) fun id hid hadded => ?_
    obtain ⟨t, ht, rfl⟩ := List.mem_map.mp hid
    obtain ⟨i, hi, heq⟩ := mem_addSheets_iff.mp hadded
    exact h t ht i hi heq

theorem lt_of_mem_addSheets (hfit : s.counter.next.toNat + requests.length ≤ 2 ^ 32)
    (hid : id ∈ (s.addSheets requests).1) {n : UInt32} (hn : n.toNat < s.counter.next.toNat) :
    n < id.number := by
  obtain ⟨i, hi, hnumber⟩ := mem_addSheets_iff.mp hid
  rw [Nat.mod_eq_of_lt (by omega)] at hnumber
  rw [UInt32.lt_iff_toNat_lt]
  omega

end Added

theorem lt_counter_of_ne_top (hcounter : s.counter.next.toNat = onePast (behindTop s.sheetIds))
    (htop : ∀ t ∈ s.sheets, t.id ≠ .top) :
    ∀ t ∈ s.sheets, t.id.number.toNat < s.counter.next.toNat := by
  intro t ht
  have hnone : ∀ id ∈ s.sheetIds, id ≠ .top := List.forall_mem_map.mpr htop
  rw [hcounter]
  refine lt_onePast ?_
  rw [behindTop_of_ne hnone, List.mem_reverse]
  exact List.mem_map_of_mem ht

/-- The sheets that are added to a show that has been read bear the numbers from `first` on, and
after the largest number those from zero on. Such a number is in use before the call if and only if
a sheet of the document bears it. So all numbers stay distinct exactly as long as the new ones meet
none of the document, which holds up to the largest number if no sheet of the document bears that
one. -/
theorem numbers_distinct_iff {names : Names} {doc : String} (hread : ofText names doc = .ok s)
    {requests : List (String × UInt32)} (hroom : s.sheets.length + requests.length ≤ 2 ^ 32) :
    let ids := (s.addSheets requests).1
    let last := (s.addSheets requests).2
    let first := onePast (behindTop s.sheetIds)
    last.sheetIds = s.sheetIds ++ ids ∧ ids.length = requests.length ∧
      (∀ (i : Nat) (id : SheetId), ids[i]? = some id →
        id.number.toNat = (first + i) % 2 ^ 32 ∧
        (id ∈ s.sheetIds ++ ids.take i ↔
          ∃ t ∈ s.sheets, t.id.number.toNat = (first + i) % 2 ^ 32)) ∧
      (last.sheetIds.Nodup ↔ ∀ t ∈ s.sheets, ∀ i < requests.length,
        t.id.number.toNat ≠ (first + i) % 2 ^ 32) ∧
      ((∀ t ∈ s.sheets, t.id ≠ .top) → first + requests.length ≤ 2 ^ 32 →
        last.sheetIds.Nodup ∧ ∀ id ∈ ids, ∀ t ∈ s.sheets, t.id.number < id.number) := by
  intro ids last first
  have hold : s.sheetIds.Nodup := sheetIds_nodup (validate_of_ofText hread)
  have hcounter : s.counter.next.toNat = first := by
    rw [counter_of_ofText hread]
    exact toNat_next_skip s.sheetIds
  have hdistinct := nodup_added_iff hold (by omega : requests.length ≤ 2 ^ 32)
  have hbelow := lt_counter_of_ne_top hcounter
  rw [← hcounter]
  refine ⟨(s.addSheets_numbers requests).2, length_addSheets s requests, fun i id hid => ?_,
    hdistinct, fun htop hfit => ⟨hdistinct.mpr fun t ht i hi => ?_, fun id hid t ht => ?_⟩⟩
  · rw [← number_addSheets hid]
    exact ⟨rfl, mem_before_added_iff (by omega) hid⟩
  · have hlt := hbelow htop t ht
    rw [Nat.mod_eq_of_lt (by omega)]
    omega
  · exact lt_of_mem_addSheets hfit hid (hbelow htop t ht)

def topNumberDocument : String := "[\"u\",1,\"east\",[],[[0,\"\",8],[4294967295,\"\",8]]]"

theorem numbers_repeat_behind_top : ∃ s, ofText (.same "c") topNumberDocument = .ok s ∧
    s.sheetIds = [⟨0⟩, .top] ∧ (s.addSheets [("", 4)]).2.sheetIds = [⟨0⟩, .top, ⟨0⟩] ∧
    ¬(s.addSheets [("", 4)]).2.sheetIds.Nodup := by
  have hrun : (ofText (.same "c") topNumberDocument).toOption.any (fun s => decide
      (s.sheetIds = [⟨0⟩, .top] ∧ s.sheets.length = 2 ∧
        (s.addSheets [("", 4)]).2.sheetIds = [⟨0⟩, .top, ⟨0⟩])) = true := by
    decide +kernel
  obtain ⟨s, hread, hfacts⟩ := exists_ok_of_any hrun
  obtain ⟨hids, hlength, hadded⟩ := of_decide_eq_true hfacts
  have hroom : s.sheets.length + [("", (4 : UInt32))].length ≤ 2 ^ 32 := by
    rw [hlength]
    decide
  obtain ⟨-, -, -, hdistinct, -⟩ := numbers_distinct_iff hread hroom
  refine ⟨s, hread, hids, hadded, ?_⟩
  have hzero : ⟨0⟩ ∈ s.sheetIds := hids ▸ List.mem_cons_self
  obtain ⟨t, ht, hnumber⟩ := List.mem_map.mp hzero
  intro h
  refine hdistinct.mp h t ht 0 Nat.one_pos ?_
  rw [hids, hnumber]
  rfl

end Show

end MarchingDrill
