import MarchingDrill.Proofs.Binary64.Unique
import MarchingDrill.Proofs.Continuity.Idle
import MarchingDrill.Proofs.Performance.Gaps

/-! The row of all commands: on whole beats the search by sheet and then by command finds what a
walk along all commands of a dot finds, and sheets without beats play no part in it. -/

namespace MarchingDrill

open Binary64

/-- Whether a beat is the number `n`, zero of either sign being 0. -/
structure IsWhole (x : Float) (n : Nat) : Prop where
  finite : x.isFinite = true
  value_eq : value x = (n * one : Nat)

/-- The first command that ends at a beat or behind it and the beat at which it starts, when the
commands follow one another from `start` on. -/
def underWay? (n : Nat) : (start : Nat) → List Command → Option (Nat × Command)
  | _, [] => none
  | start, c :: cs =>
    if n ≤ start + c.duration.toNat then some (start, c)
    else underWay? n (start + c.duration.toNat) cs

namespace Track

def commands (t : Track) : List Command := t.stays.flatMap fun s => s.segment.commands

/-- The pose at the beat `n` by a walk along all commands of a track. -/
def rowPose? (t : Track) (beat : Float) (n : Nat) : Option Pose :=
  (underWay? n 0 t.commands).bind fun (start, c) =>
    c.poseAt? (beat - (UInt32.ofNat start).toFloat)

def withoutEmptySheets (t : Track) : Track := { t with stays := t.stays.filter (·.beats ≠ 0) }

end Track

theorem IsWhole.of_toFloat (n : UInt32) : IsWhole n.toFloat n.toNat :=
  ⟨(value_toFloat n).1, (value_toFloat n).2⟩

theorem totalBeats_cons (c : Command) (cs : List Command) :
    totalBeats (c :: cs) = c.duration.toNat + totalBeats cs := exactSum_cons ..

section UnderWay

theorem underWay?_append (n start : Nat) (cs ds : List Command) :
    underWay? n start (cs ++ ds) =
      (underWay? n start cs).or (underWay? n (start + totalBeats cs) ds) := by
  induction cs generalizing start with
  | nil => rfl
  | cons c cs ih =>
    rw [List.cons_append, underWay?, underWay?]
    split
    · rfl
    · rw [ih, totalBeats_cons, Nat.add_assoc]

theorem underWay?_eq_none {n start : Nat} {cs : List Command} (h : start + totalBeats cs < n) :
    underWay? n start cs = none := by
  induction cs generalizing start with
  | nil => rfl
  | cons c cs ih =>
    rw [totalBeats_cons] at h
    rw [underWay?, if_neg (by omega)]
    exact ih (by omega)

theorem exists_underWay? {n start : Nat} {cs : List Command} (hne : cs ≠ [])
    (hle : n ≤ start + totalBeats cs) : ∃ first c, underWay? n start cs = some (first, c) := by
  induction cs generalizing start with
  | nil => exact absurd rfl hne
  | cons c cs ih =>
    rw [totalBeats_cons] at hle
    rw [underWay?]
    split
    · exact ⟨start, c, rfl⟩
    · next hlt =>
      refine ih ?_ (by omega)
      rintro rfl
      exact hlt hle

theorem underWay?_add (k n start : Nat) (cs : List Command) :
    underWay? (k + n) (k + start) cs =
      (underWay? n start cs).map fun (first, c) => (k + first, c) := by
  induction cs generalizing start with
  | nil => rfl
  | cons c cs ih =>
    rw [underWay?, underWay?, Nat.add_assoc, ih]
    simp only [Nat.add_le_add_iff_left]
    split <;> rfl

end UnderWay

namespace IsWhole

variable {x : Float} {n : Nat} (hn : IsWhole x n)
include hn

theorem isBeat (h : n ≤ 2 ^ 32) : IsBeat x := by
  have hle := Nat.mul_le_mul_right one h
  refine ⟨hn.finite, ?_, ?_⟩ <;> (rw [hn.value_eq]; omega)

theorem isOver_iff (hx : IsBeat x) (e : UInt32) : isOver e x = true ↔ e.toNat < n := by
  have hvalue := hn.value_eq
  have hone := two_mul_slackUnits_lt_one
  constructor
  · intro hover
    have hlt := hx.lt_of_isOver e hover
    exact Nat.lt_of_mul_lt_mul_right (a := one) (by omega)
  · intro hlt
    by_contra hover
    have hle := hx.le_of_not_isOver e (Bool.not_eq_true _ ▸ hover)
    have hmul := Nat.mul_le_mul_right one (Nat.succ_le_of_lt hlt)
    rw [Nat.succ_mul] at hmul
    omega

theorem underWay?_eq (hx : IsBeat x) {start : UInt32} {cs : List Command}
    (hfit : start.toNat + totalBeats cs < 2 ^ 32) :
    underWay? n start.toNat cs =
      cs[placeAt (endsFrom start (cs.map Command.duration)) x]?.map fun c => (start.toNat +
        totalBeats (cs.take (placeAt (endsFrom start (cs.map Command.duration)) x)), c) := by
  induction cs generalizing start with
  | nil => rfl
  | cons c cs ih =>
    rw [totalBeats_cons] at hfit
    have hadd : (start + c.duration).toNat = start.toNat + c.duration.toNat :=
      toNat_add_of_lt (by omega)
    have hover := hn.isOver_iff hx (start + c.duration)
    rw [hadd] at hover
    rw [underWay?, List.map_cons, endsFrom, placeAt, List.findIdx_cons]
    by_cases hle : n ≤ start.toNat + c.duration.toNat
    · have hnot : isOver (start + c.duration) x = false :=
        Bool.eq_false_iff.mpr fun h => absurd (hover.mp h) (by omega)
      rw [if_pos hle, hnot]
      rfl
    · have hyes : isOver (start + c.duration) x = true := hover.mpr (by omega)
      rw [if_neg hle, ← hadd, ih (by omega), hyes]
      simp only [Bool.not_true, cond_false, List.getElem?_cons_succ, List.take_succ_cons,
        totalBeats_cons, hadd, Nat.add_assoc]
      rfl

theorem le_two_pow (hx : IsBeat x) : n ≤ 2 ^ 32 := by
  have hle := hx.le
  rw [hn.value_eq] at hle
  exact Nat.le_of_mul_le_mul_right (Int.ofNat_le.mp hle) one_units_pos

theorem sub_sub (hx : IsBeat x) {j k : Nat} (h : j + k = 0 ∨ j + k < n) :
    x - (UInt32.ofNat j).toFloat - (UInt32.ofNat k).toFloat =
      x - (UInt32.ofNat (j + k)).toFloat := by
  -- where anything is taken off the result is not zero, so that its sign is not in question
  rcases h with hzero | hlt
  · obtain ⟨rfl, rfl⟩ := Nat.add_eq_zero_iff.mp hzero
    exact congrArg (· - _) (sub_zero hn.finite)
  · have hvalue := hn.value_eq
    have htop := hn.le_two_pow hx
    have hmul := Nat.mul_lt_mul_of_pos_right hlt one_units_pos
    have hnat : ∀ i ≤ j + k, (UInt32.ofNat i).toNat = i :=
      fun i hi => UInt32.toNat_ofNat_of_lt' (by omega : i < 2 ^ 32)
    have hj := hnat j (Nat.le_add_right j k)
    have hk := hnat k (Nat.le_add_left k j)
    have hsum := hnat (j + k) (Nat.le_refl _)
    rw [Nat.add_mul] at hmul
    obtain ⟨hfirst, hfirstValue⟩ := hx.sub_toFloat (UInt32.ofNat j) (by rw [hj]; omega)
    rw [hj] at hfirstValue
    obtain ⟨hsecond, hsecondValue⟩ := hfirst.sub_toFloat (UInt32.ofNat k) (by rw [hk]; omega)
    rw [hk] at hsecondValue
    obtain ⟨honce, honceValue⟩ :=
      hx.sub_toFloat (UInt32.ofNat (j + k)) (by rw [hsum, Nat.add_mul]; omega)
    rw [hsum, Nat.add_mul] at honceValue
    exact eq_of_value_eq hsecond.finite honce.finite (by omega) (by omega)

theorem past {k : UInt32} (h : k.toNat < n) : k.toFloat + beatSlack < x := by
  obtain ⟨hfinite, hvalue⟩ := value_toFloat k
  have hslack := two_mul_slackUnits_lt_one
  have hk := IsBeat.value_toFloat_le k
  have hspec := value_add hfinite value_beatSlack.1
  rw [hvalue, value_beatSlack.2] at hspec
  obtain ⟨hfinite', hrounds⟩ := hspec (log2_lt_of_le (by omega))
  -- the sum cannot be rounded past the half between two whole beats
  obtain ⟨i, hi, hj⟩ : ∃ i, i ≠ 0 ∧ one = 2 ^ i := ⟨1074, by decide, one_eq⟩
  obtain ⟨j, rfl⟩ := Nat.exists_eq_succ_of_ne_zero hi
  rw [Nat.pow_succ] at hj
  have hfits : Fits ((k.toNat * one + 2 ^ j : Nat) : Int).natAbs := by
    refine ⟨2 * k.toNat + 1, j, ?_, ?_⟩
    · have := k.toNat_lt
      omega
    · rw [Int.natAbs_natCast, hj]
      ring
  have hle := hrounds.le_of_le hfits (by omega)
  have hmul := Nat.mul_le_mul_right one (Nat.succ_le_of_lt h)
  have hpos := one_units_pos
  rw [Nat.succ_mul] at hmul
  rw [lt_iff hfinite' hn.finite, hn.value_eq]
  omega

end IsWhole

theorem start_of_underWay? {n start first : Nat} {cs : List Command} {c : Command}
    (h : underWay? n start cs = some (first, c)) : first = start ∨ first < n := by
  induction cs generalizing start with
  | nil => cases h
  | cons d cs ih =>
    rw [underWay?] at h
    split at h
    · cases h
      exact .inl rfl
    · rcases ih h with rfl | hlt
      · exact .inr (by omega)
      · exact .inr hlt

namespace Segment

variable {g : Segment} {x : Float} {n : Nat}

theorem poseAt?_eq_underWay (hn : IsWhole x n) (hx : IsBeat x) (hne : g.commands ≠ [])
    (hfit : totalBeats g.commands < 2 ^ 32) (hle : n ≤ totalBeats g.commands) :
    g.poseAt? x = (underWay? n 0 g.commands).bind fun (start, c) =>
      c.poseAt? (x - (UInt32.ofNat start).toFloat) := by
  have hvalue : value x ≤ (totalBeats g.commands * one : Nat) := by
    rw [hn.value_eq]
    exact Int.ofNat_le.mpr (Nat.mul_le_mul_right one hle)
  have hlt : MarchingDrill.placeAt g.ends x < (g.commands.map Command.duration).length :=
    placeAt_lt hx hfit (by simpa using hne) hvalue
  have hplace : g.placeAt x = MarchingDrill.placeAt g.ends x := by
    rw [List.length_map] at hlt
    unfold placeAt
    omega
  have hstart : (startAt g.ends (g.placeAt x)).toNat =
      totalBeats (g.commands.take (g.placeAt x)) := by
    rw [hplace, totalBeats, List.map_take]
    exact toNat_startAt hfit hlt.le
  have hfit' : (0 : UInt32).toNat + totalBeats g.commands < 2 ^ 32 := by simpa using hfit
  have hwalk : underWay? n 0 g.commands = _ := hn.underWay?_eq hx hfit'
  change _ = (g.commands[MarchingDrill.placeAt g.ends x]?).map _ at hwalk
  change (g.commands[g.placeAt x]?).bind _ = _
  rw [hwalk, ← hplace, Option.bind_map]
  refine congrArg (Option.bind _) (funext fun c => ?_)
  change _ = c.poseAt? (x - (UInt32.ofNat ((0 : UInt32).toNat + totalBeats (g.commands.take
    (MarchingDrill.placeAt g.ends x)))).toFloat)
  rw [← hplace, ← hstart, UInt32.toNat_zero, Nat.zero_add, UInt32.ofNat_toNat]

end Segment

namespace Track

variable {t : Track} {beat : Float} {n : Nat}

theorem totalBeats_flatMap {stays : List Stay} (hfull : ∀ s ∈ stays, s.Full) :
    totalBeats (stays.flatMap fun s => s.segment.commands) = exactSum (stays.map Stay.beats) := by
  induction stays with
  | nil => rfl
  | cons s ss ih =>
    obtain ⟨hs, hss⟩ := List.forall_mem_cons.mp hfull
    have hown : totalBeats s.segment.commands = s.beats.toNat := hs
    rw [List.flatMap_cons, List.map_cons, exactSum_cons, totalBeats, List.map_append,
      exactSum_append]
    exact congrArg₂ (· + ·) hown (ih hss)

theorem commands_eq_nil {stays : List Stay} (hsum : exactSum (stays.map Stay.beats) = 0)
    (hempty : ∀ s ∈ stays, s.beats = 0 → s.segment.commands = []) :
    stays.flatMap (fun s => s.segment.commands) = [] := by
  rw [List.flatMap_eq_nil_iff]
  intro s hs
  obtain ⟨before, after, rfl⟩ := List.append_of_mem hs
  rw [List.map_append, List.map_cons, exactSum_append, exactSum_cons] at hsum
  have hzero : s.beats.toNat = 0 := by omega
  exact hempty s hs (UInt32.toNat_inj.mp hzero)

theorem commands_filter {stays : List Stay}
    (hempty : ∀ s ∈ stays, s.beats = 0 → s.segment.commands = []) :
    (stays.filter (·.beats ≠ 0)).flatMap (fun s => s.segment.commands) =
      stays.flatMap fun s => s.segment.commands := by
  induction stays with
  | nil => rfl
  | cons s ss ih =>
    obtain ⟨hs, hss⟩ := List.forall_mem_cons.mp hempty
    rw [List.filter_cons, List.flatMap_cons, ← ih hss]
    split
    · rfl
    · next hzero => rw [hs (by simpa using hzero), List.nil_append]

theorem start_lt_or_eq_zero (hn : IsWhole beat n) (hx : IsBeat beat)
    (hfit : exactSum (t.stays.map Stay.beats) < 2 ^ 32) :
    exactSum ((t.stays.map Stay.beats).take (t.placeAt beat)) < n ∨
      exactSum ((t.stays.map Stay.beats).take (t.placeAt beat)) = 0 := by
  rw [exactSum_take_placeAt]
  rcases Nat.eq_zero_or_pos (MarchingDrill.placeAt t.ends beat) with hzero | hpos
  · rw [hzero]
    exact .inr rfl
  · have hlt : (((startAt t.ends (MarchingDrill.placeAt t.ends beat)).toNat * one : Nat) : Int) <
        value beat := startAt_lt hx (Nat.le_refl _) hpos.ne'
    have hlen : MarchingDrill.placeAt t.ends beat ≤ (t.stays.map Stay.beats).length := by
      rw [← length_endsFrom 0 (t.stays.map Stay.beats)]
      exact List.findIdx_le_length
    have hstart : (startAt t.ends (MarchingDrill.placeAt t.ends beat)).toNat = _ :=
      toNat_startAt hfit hlen
    rw [hn.value_eq, hstart] at hlt
    exact .inl (Nat.lt_of_mul_lt_mul_right (a := one) (by omega))

theorem underWay?_commands (hn : IsWhole beat n) (hx : IsBeat beat)
    (hfit : exactSum (t.stays.map Stay.beats) < 2 ^ 32) (hfull : ∀ s ∈ t.stays, s.Full)
    (hempty : ∀ s ∈ t.stays, s.beats = 0 → s.segment.commands = []) {s : Stay}
    (hs : t.stays[t.placeAt beat]? = some s) {first : Nat} {c : Command}
    (hfound : underWay? n (exactSum ((t.stays.map Stay.beats).take (t.placeAt beat)))
      s.segment.commands = some (first, c)) :
    underWay? n 0 t.commands = some (first, c) := by
  obtain ⟨hlt, rfl⟩ := List.getElem?_eq_some_iff.mp hs
  have hsplit : t.stays = t.stays.take (t.placeAt beat) ++
      t.stays[t.placeAt beat] :: t.stays.drop (t.placeAt beat + 1) := by
    rw [← List.drop_eq_getElem_cons hlt, List.take_append_drop]
  have hmem : ∀ s ∈ t.stays.take (t.placeAt beat), s ∈ t.stays :=
    fun s hs => List.mem_of_mem_take hs
  have hbefore : totalBeats ((t.stays.take (t.placeAt beat)).flatMap fun s => s.segment.commands) =
      exactSum ((t.stays.map Stay.beats).take (t.placeAt beat)) := by
    rw [totalBeats_flatMap fun s hs => hfull s (hmem s hs), List.map_take]
  have hpassed : underWay? n 0
      ((t.stays.take (t.placeAt beat)).flatMap fun s => s.segment.commands) = none := by
    rcases start_lt_or_eq_zero hn hx hfit with hstart | hzero
    · exact underWay?_eq_none (by omega)
    · rw [← List.map_take] at hzero
      rw [commands_eq_nil hzero fun s hs => hempty s (hmem s hs)]
      rfl
  rw [commands, hsplit, List.flatMap_append, List.flatMap_cons, underWay?_append, hpassed,
    Option.none_or, underWay?_append, hbefore, Nat.zero_add, hfound, Option.some_or]

theorem poseAt?_of_under_way (hn : IsWhole beat n) (hx : IsBeat beat)
    (hfit : exactSum (t.stays.map Stay.beats) < 2 ^ 32) (hfull : ∀ s ∈ t.stays, s.Full)
    (hempty : ∀ s ∈ t.stays, s.beats = 0 → s.segment.commands = []) {s : Stay}
    (hs : t.stays[t.placeAt beat]? = some s) :
    s.segment.poseAt? (beat - (startAt t.ends (t.placeAt beat)).toFloat) = t.rowPose? beat n := by
  have hlt : t.placeAt beat < (t.stays.map Stay.beats).length := by
    rw [List.length_map]
    exact (List.getElem?_eq_some_iff.mp hs).1
  have hstart : (startAt t.ends (t.placeAt beat)).toNat =
      exactSum ((t.stays.map Stay.beats).take (t.placeAt beat)) := toNat_startAt hfit hlt.le
  have hsfull : s.Full := hfull s (List.mem_of_getElem? hs)
  have hown : totalBeats s.segment.commands = s.beats.toNat := hsfull
  obtain ⟨hbeat, hvalue, hlate⟩ := stay_under_way hx hfit hs
  have hbefore := start_lt_or_eq_zero hn hx hfit
  rw [← hstart] at hbefore
  obtain ⟨S, hS⟩ : ∃ S, startAt t.ends (t.placeAt beat) = S := ⟨_, rfl⟩
  rw [hS] at hbeat hvalue hlate hstart hbefore ⊢
  -- the beat lies `m` beats into the sheet
  obtain ⟨m, rfl⟩ : ∃ m, n = S.toNat + m := ⟨n - S.toNat, by omega⟩
  have hm : IsWhole (beat - S.toFloat) m := by
    refine ⟨hbeat.finite, ?_⟩
    rw [hvalue, hn.value_eq, Nat.add_mul]
    omega
  have hle : m ≤ totalBeats s.segment.commands := by
    have hslack := two_mul_slackUnits_lt_one
    rw [hn.value_eq] at hlate
    rw [hown]
    refine Nat.le_of_lt_succ (Nat.lt_of_mul_lt_mul_right (a := one) ?_)
    rw [Nat.add_mul, Nat.add_mul] at hlate
    rw [Nat.succ_mul]
    omega
  have hne : s.segment.commands ≠ [] := hsfull.commands_ne_nil (beats_ne_zero hs)
  obtain ⟨first, c, hfound⟩ := exists_underWay? hne (by omega : m ≤ 0 + totalBeats _)
  have hshifted : underWay? (S.toNat + m) S.toNat s.segment.commands =
      some (S.toNat + first, c) := by
    have hadd := underWay?_add S.toNat m 0 s.segment.commands
    rwa [Nat.add_zero, hfound] at hadd
  have hrow : underWay? (S.toNat + m) 0 t.commands = some (S.toNat + first, c) :=
    underWay?_commands hn hx hfit hfull hempty hs (by rw [← hstart]; exact hshifted)
  have hlast : S.toNat + first = 0 ∨ S.toNat + first < S.toNat + m := by
    have hfirst := start_of_underWay? hfound
    omega
  have hsub := hn.sub_sub hx hlast
  rw [UInt32.ofNat_toNat] at hsub
  rw [Segment.poseAt?_eq_underWay hm hbeat hne hsfull.fits hle, rowPose?, hrow, hfound]
  simp only [Option.bind_some, hsub]

theorem poseAt?_eq_rowPose? (hfit : exactSum (t.stays.map Stay.beats) < 2 ^ 32)
    (hfull : ∀ s ∈ t.stays, s.Full)
    (hempty : ∀ s ∈ t.stays, s.beats = 0 → s.segment.commands = []) (hn : IsWhole beat n) :
    t.poseAt? beat = t.rowPose? beat n := by
  have hrow : totalBeats t.commands = exactSum (t.stays.map Stay.beats) :=
    totalBeats_flatMap hfull
  have htotal : t.total.toNat = exactSum (t.stays.map Stay.beats) := toNat_lastEnd hfit
  rcases Nat.lt_or_ge (exactSum (t.stays.map Stay.beats)) n with hpast | hle
  · have hguard : t.total.toFloat + beatSlack < beat := hn.past (by omega)
    have hnone : underWay? n 0 t.commands = none := underWay?_eq_none (by omega)
    rw [poseAt?, rowPose?, hnone]
    simp [hguard]
  · have hx : IsBeat beat := hn.isBeat (by omega)
    have hmul := Nat.mul_le_mul_right one hle
    have hwithin : value beat ≤ (t.total.toNat * one : Nat) := by
      rw [hn.value_eq, htotal]
      omega
    rw [poseAt?_of_le hx hwithin]
    cases hs : t.stays[t.placeAt beat]? with
    | none =>
      -- no sheet has beats
      have hsum : exactSum (t.stays.map Stay.beats) = 0 := by
        by_contra hne
        have hlt := placeAt_lt_length hx hfit (Nat.pos_of_ne_zero hne) (by
          rw [hn.value_eq]
          omega)
        rw [List.getElem?_eq_getElem hlt] at hs
        cases hs
      have hnil : t.commands = [] := commands_eq_nil hsum hempty
      rw [rowPose?, hnil]
      rfl
    | some s => exact poseAt?_of_under_way hn hx hfit hfull hempty hs

theorem poseAt?_withoutEmptySheets (hfit : exactSum (t.stays.map Stay.beats) < 2 ^ 32)
    (hfull : ∀ s ∈ t.stays, s.Full)
    (hempty : ∀ s ∈ t.stays, s.beats = 0 → s.segment.commands = []) (hn : IsWhole beat n) :
    t.withoutEmptySheets.poseAt? beat = t.poseAt? beat := by
  have hmem : ∀ s ∈ t.withoutEmptySheets.stays, s ∈ t.stays := fun s hs => List.mem_of_mem_filter hs
  have hfull' : ∀ s ∈ t.withoutEmptySheets.stays, s.Full := fun s hs => hfull s (hmem s hs)
  have hempty' : ∀ s ∈ t.withoutEmptySheets.stays, s.beats = 0 → s.segment.commands = [] :=
    fun s hs => hempty s (hmem s hs)
  have hrow : t.withoutEmptySheets.commands = t.commands := commands_filter hempty
  have hsum : exactSum (t.withoutEmptySheets.stays.map Stay.beats) =
      exactSum (t.stays.map Stay.beats) := by
    rw [← totalBeats_flatMap hfull', ← totalBeats_flatMap hfull]
    exact congrArg totalBeats hrow
  rw [poseAt?_eq_rowPose? (hsum ▸ hfit) hfull' hempty' hn, poseAt?_eq_rowPose? hfit hfull hempty hn,
    rowPose?, hrow, rowPose?]

end Track

namespace Show

variable {s : Show} {settings : Settings} {dot : DotId}

theorem performFrom_of_no_beats {sheet : SheetId} (hbeats : s.sheetBeats sheet = 0) (start : Spot) :
    (s.performFrom settings dot sheet start).commands = [] := by
  cases h : Continuity.performAll dot (s.listFor sheet dot) (s.scene sheet)
      ⟨start, s.sheetBeats sheet⟩ with
  | error f =>
    rw [performFrom_of_error h]
    exact if_pos hbeats
  | ok p =>
    obtain ⟨issues, -, hresult⟩ := performFrom_of_ok settings h
    cases Continuity.performAll_of_no_beats hbeats h
    rw [hresult]
    refine List.append_eq_nil_iff.mpr ⟨rfl, ?_⟩
    split
    · exact if_pos hbeats
    · rfl

theorem performSheets_empty {sheets : List SheetId} (carried : Option Spot) :
    ∀ stay ∈ (s.performSheets settings dot carried sheets).1,
      stay.beats = 0 → stay.segment.commands = [] := by
  induction sheets generalizing carried with
  | nil =>
    intro stay hstay
    cases hstay
  | cons sheet sheets ih =>
    intro stay hstay hbeats
    rcases List.mem_cons.mp hstay with rfl | hstay
    · cases hstart : carried.or (s.spot? sheet dot) with
      | none => exact congrArg SheetResult.commands (performSheet_of_none hstart)
      | some start =>
        exact (performSheet_of_some settings hstart).1.trans (performFrom_of_no_beats hbeats start)
    · exact ih _ stay hstay hbeats

/-- With closing on, the pose at a whole beat of a dot that has a spot on every sheet is found by a
walk along the row of all its commands: the first one that ends at the beat or behind it gives the
pose, and behind the show there is none. Leaving out the sheets without beats changes nothing. -/
theorem pose_eq_rowPose {names : Names} {doc : String} (hread : ofText names doc = .ok s)
    (hfit : exactSum (s.sheets.map Sheet.beats) < 2 ^ 32) (hpad : settings.padUnusedBeats = true)
    (hdot : dot ∈ s.dotIds) (hplaced : ∀ t ∈ s.sheets, (t.spot? dot).isSome) {beat : Float}
    {n : Nat} (hn : IsWhole beat n) :
    ∃ track, (s.perform settings).track? dot = some track ∧
      track.poseAt? beat = track.rowPose? beat n ∧
      (exactSum (s.sheets.map Sheet.beats) < n → track.poseAt? beat = none) ∧
      track.withoutEmptySheets.poseAt? beat = track.poseAt? beat := by
  have hvalid := validate_of_ofText hread
  have hsheets := sheetIds_nodup hvalid
  have hbeats : (s.performSheets settings dot none s.sheetIds).1.map Stay.beats =
      s.sheets.map Sheet.beats := by
    rw [map_beats_performSheets, map_sheetBeats hsheets]
  have hspots : ∀ sheet ∈ s.sheetIds, (s.spot? sheet dot).isSome := by
    intro sheet hsheet
    obtain ⟨t, ht, rfl⟩ := List.mem_map.mp hsheet
    rw [spot?_of_mem hsheets ht]
    exact hplaced t ht
  have hfull := performSheets_full hpad hspots none
  have hempty := @performSheets_empty s settings dot s.sheetIds none
  rw [← hbeats] at hfit ⊢
  refine ⟨_, track?_perform settings (dotIds_nodup hvalid) hdot,
    Track.poseAt?_eq_rowPose? hfit hfull hempty hn, ?_,
    Track.poseAt?_withoutEmptySheets hfit hfull hempty hn⟩
  intro hpast
  rw [Track.poseAt?_eq_rowPose? hfit hfull hempty hn, Track.rowPose?, underWay?_eq_none]
  · rfl
  · rw [Track.commands, Track.totalBeats_flatMap hfull]
    omega

/-- One dot that faces west on the second sheet and east on the fourth, with sheets without beats in
front of them, between them and behind them. -/
def emptySheetsDocument : String :=
  "[\"u\",1,\"east\",[[\"A\"]],[[0,\"\",0,null,null,\x7b\"A\":[0,0]\x7d]," ++
    "[1,\"\",2,null,\"west\",\x7b\"A\":[0,0]\x7d," ++
    "\x7b\"plain\":[\x7b\"type\":\"stop\",\"duration\":1\x7d]\x7d]," ++
    "[2,\"\",0,null,null,\x7b\"A\":[0,0]\x7d],[3,\"\",3,null,null,\x7b\"A\":[0,0]\x7d]," ++
    "[4,\"\",0,null,null,\x7b\"A\":[0,0]\x7d],[5,\"\",0,null,null,\x7b\"A\":[0,0]\x7d]]]"

theorem rowPose_between_empty_sheets : ∃ s, ofText (.same "c") emptySheetsDocument = .ok s ∧
    ∃ track, (s.perform .standard).track? ⟨"A"⟩ = some track ∧
      track.rowPose? (2 : UInt32).toFloat 2 = some ⟨⟨0, 0⟩, 180⟩ ∧
      track.withoutEmptySheets.poseAt? (2 : UInt32).toFloat = some ⟨⟨0, 0⟩, 180⟩ := by
  have hrun : (ofText (.same "c") emptySheetsDocument).toOption.any (fun s => decide
      (s.sheets.map Sheet.beats = [0, 2, 0, 3, 0, 0] ∧ ⟨"A"⟩ ∈ s.dotIds ∧
        (∀ t ∈ s.sheets, (t.spot? ⟨"A"⟩).isSome) ∧
        (s.perform .standard).poseAt? ⟨"A"⟩ (2 : UInt32).toFloat = some ⟨⟨0, 0⟩, 180⟩)) = true := by
    decide +kernel
  obtain ⟨s, hread, hfacts⟩ := exists_ok_of_any hrun
  obtain ⟨hbeats, hdot, hplaced, hpose⟩ := of_decide_eq_true hfacts
  have hfit : exactSum (s.sheets.map Sheet.beats) < 2 ^ 32 := by
    rw [hbeats]
    decide
  obtain ⟨track, htrack, hrow, -, hempty⟩ :=
    pose_eq_rowPose hread hfit (rfl : Settings.standard.padUnusedBeats = true) hdot hplaced
      (IsWhole.of_toFloat 2)
  rw [Performance.poseAt?, htrack, Option.bind_some] at hpose
  exact ⟨s, hread, track, htrack, hrow.symm.trans hpose, hempty.trans hpose⟩

end Show

end MarchingDrill
