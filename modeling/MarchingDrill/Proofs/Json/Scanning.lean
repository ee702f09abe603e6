import MarchingDrill.Json.Reading
import MarchingDrill.Json.Writing
import MarchingDrill.Proofs.Decimal.Spelling

/-! Scanning: the characters of a value are taken as its tokens. -/

namespace MarchingDrill.Json

open Decimal

mutual

def tokens : Json → List Token
  | .arr items => .openList :: tokensList items
  | .obj members => .openObject :: tokensMembers members
  | .str t => [.text t]
  | v => [.word (chars v)]

def tokensList : List Json → List Token
  | [] => [.closeList]
  | [v] => tokens v ++ [.closeList]
  | v :: vs => tokens v ++ .comma :: tokensList vs

def tokensMembers : List (Option String × Json) → List Token
  | [] => [.closeObject]
  | [(key, v)] => .text key :: .colon :: (tokens v ++ [.closeObject])
  | (key, v) :: ms => .text key :: .colon :: (tokens v ++ .comma :: tokensMembers ms)

end

theorem tokensList_cons (v w : Json) (vs : List Json) :
    tokensList (v :: w :: vs) = tokens v ++ .comma :: tokensList (w :: vs) := by
  rw [tokensList]
  nofun

theorem tokensMembers_cons (key : Option String) (v : Json) (m : Option String × Json)
    (ms : List (Option String × Json)) :
    tokensMembers ((key, v) :: m :: ms) =
      .text key :: .colon :: (tokens v ++ .comma :: tokensMembers (m :: ms)) := by
  rw [tokensMembers]
  nofun

/-- The state of a scan behind a value, where the last token may be a word that still waits for its
end. -/
inductive Scan.Behind (ts : List Token) : Scan → Prop
  | blank : Behind ts ⟨ts, .blank⟩
  | word {rest : List Token} {seen : List Char} (h : .word seen.reverse :: rest = ts) :
      Behind ts ⟨rest, .word seen⟩

section Marks

variable {ts : List Token} {s : Scan} {c : Char} {t : Token}

theorem isBlank_of_mark? (hc : mark? c = some t) : isBlank c = false := by
  unfold mark? at hc
  split at hc
  case h_7 => cases hc
  all_goals rfl

theorem startToken_of_mark? (hc : mark? c = some t) (ts : List Token) :
    startToken ts c = ⟨t :: ts, .blank⟩ := by
  rw [startToken, isBlank_of_mark? hc, hc]
  rfl

theorem Scan.Behind.step (h : s.Behind ts) (hc : mark? c = some t) :
    s.step c = some ⟨t :: ts, .blank⟩ := by
  cases h with
  | blank => exact congrArg some (startToken_of_mark? hc ts)
  | @word rest seen h =>
    have hend : endsWord c = true := by
      rw [endsWord, hc, Option.isSome_some, Bool.or_true, Bool.true_or]
    refine (if_pos hend).trans ?_
    rw [h, startToken_of_mark? hc]

theorem Scan.Behind.finish (h : s.Behind ts) : s.finish = some ts.reverse := by
  cases h with
  | blank => rfl
  | word h =>
    rw [← h]
    rfl

end Marks

section Words

theorem scan_rest_of_word {cs : List Char} (hcs : ∀ c ∈ cs, endsWord c = false)
    (ts : List Token) (seen : List Char) :
    cs.foldlM Scan.step ⟨ts, .word seen⟩ = some ⟨ts, .word (cs.reverse ++ seen)⟩ := by
  induction cs generalizing seen with
  | nil => rfl
  | cons c cs ih =>
    obtain ⟨hc, hcs⟩ := List.forall_mem_cons.mp hcs
    have hstep : Scan.step ⟨ts, .word seen⟩ c = some ⟨ts, .word (c :: seen)⟩ :=
      if_neg (by simp [hc])
    rw [List.foldlM_cons, hstep, List.reverse_cons, List.append_assoc]
    exact ih hcs (c :: seen)

theorem scan_word {cs : List Char} (hne : cs ≠ []) (hcs : ∀ c ∈ cs, endsWord c = false)
    (ts : List Token) :
    ∃ s, cs.foldlM Scan.step ⟨ts, .blank⟩ = some s ∧ s.Behind (.word cs :: ts) := by
  cases cs with
  | nil => exact absurd rfl hne
  | cons c cs =>
    obtain ⟨hc, hcs⟩ := List.forall_mem_cons.mp hcs
    simp only [endsWord, Bool.or_eq_false_iff, Option.isSome_eq_false_iff,
      Option.isNone_iff_eq_none, decide_eq_false_iff_not] at hc
    obtain ⟨⟨hblank, hmark⟩, hquote⟩ := hc
    have hstep : Scan.step ⟨ts, .blank⟩ c = some ⟨ts, .word [c]⟩ := by
      rw [Scan.step, startToken, hblank, hmark, if_neg hquote]
      rfl
    rw [List.foldlM_cons, hstep]
    exact ⟨_, scan_rest_of_word hcs ts [c], .word (by simp)⟩

theorem endsWord_of_isDigit {c : Char} (hc : c.isDigit) : endsWord c = false := by
  have hblank : isBlank c = false := by
    by_contra h
    simp only [isBlank, Bool.not_eq_false, Bool.or_eq_true, decide_eq_true_eq] at h
    obtain ((rfl | rfl) | rfl) | rfl := h
    all_goals cases hc
  have hmark : mark? c = none := by
    unfold mark?
    split
    case h_7 => rfl
    all_goals cases hc
  have hquote : c ≠ '"' := by
    rintro rfl
    cases hc
  simp [endsWord, hblank, hmark, hquote]

theorem scan_numeral (n : Numeral) (ts : List Token) :
    ∃ s, n.chars.foldlM Scan.step ⟨ts, .blank⟩ = some s ∧ s.Behind (.word n.chars :: ts) := by
  refine scan_word ?_ ?_ ts
  · obtain ⟨c, cs, hcs, -⟩ := n.chars_eq_cons
    rw [hcs]
    exact List.cons_ne_nil c cs
  · intro c hc
    obtain hc | rfl | rfl | rfl | rfl := Numeral.mem_chars hc
    · exact endsWord_of_isDigit hc
    all_goals rfl

end Words

section Texts

inductive Piece.Spells : Piece → Char → Prop
  | char (c : Char) : Spells (.char c) c
  | unit {c : Char} (h : c < ' ') : Spells (.unit c.toNat) c

theorem joinPieces_unit {c : Char} (hc : c < ' ') (ps : List Piece) (done : List Char) :
    joinPieces (.unit c.toNat :: ps) done = joinPieces ps (c :: done) := by
  have hsmall : c.toNat < 32 := hc
  have hhigh : isHighSurrogate c.toNat = false := by
    simp only [isHighSurrogate, Bool.and_eq_false_iff, decide_eq_false_iff_not]
    omega
  have hlow : isLowSurrogate c.toNat = false := by
    simp only [isLowSurrogate, Bool.and_eq_false_iff, decide_eq_false_iff_not]
    omega
  rcases ps with _ | ⟨d | u, ps⟩ <;> simp [joinPieces, hhigh, hlow]

theorem joinPieces_of_spells {ps : List Piece} {cs : List Char}
    (h : List.Forall₂ Piece.Spells ps cs) (done : List Char) :
    joinPieces ps done = some (cs.reverse ++ done) := by
  induction h generalizing done with
  | nil => rfl
  | @cons p c ps cs hp _ ih =>
    rw [List.reverse_cons, List.append_assoc]
    cases hp with
    | char => exact ih (c :: done)
    | unit hc => exact (joinPieces_unit hc ps done).trans (ih (c :: done))

theorem scan_unit {c : Char} (hc : c < ' ') (ts : List Token) (seen : List Piece) :
    ['\\', 'u', '0', '0', Nat.digitChar (c.toNat / 16), Nat.digitChar (c.toNat % 16)].foldlM
      Scan.step ⟨ts, .quoted seen⟩ = some ⟨ts, .quoted (.unit c.toNat :: seen)⟩ := by
  have hhex : ∀ n < 16, hexDigit? (Nat.digitChar n) = some n := by decide
  have hsmall : c.toNat < 32 := hc
  have hhigh := hhex (c.toNat / 16) (by omega)
  have hlow := hhex (c.toNat % 16) (by omega)
  have hvalue : 16 * (c.toNat / 16) + c.toNat % 16 = c.toNat := by omega
  have hzeros : ['\\', 'u', '0', '0'].foldlM Scan.step ⟨ts, .quoted seen⟩ =
      some ⟨ts, .unit seen 2 0⟩ := rfl
  have hthird : Scan.step ⟨ts, .unit seen 2 0⟩ (Nat.digitChar (c.toNat / 16)) =
      some ⟨ts, .unit seen 3 (c.toNat / 16)⟩ := by simp [Scan.step, hhigh]
  have hfourth : Scan.step ⟨ts, .unit seen 3 (c.toNat / 16)⟩ (Nat.digitChar (c.toNat % 16)) =
      some ⟨ts, .quoted (.unit c.toNat :: seen)⟩ := by simp [Scan.step, hlow, hvalue]
  change (['\\', 'u', '0', '0'] ++ [_, _]).foldlM Scan.step _ = _
  rw [List.foldlM_append, hzeros, Option.bind_eq_bind, Option.bind_some, List.foldlM_cons,
    hthird, Option.bind_eq_bind, Option.bind_some, List.foldlM_cons, hfourth]
  rfl

theorem scan_escape (c : Char) (ts : List Token) (seen : List Piece) :
    ∃ p : Piece, p.Spells c ∧
      (escape c).foldlM Scan.step ⟨ts, .quoted seen⟩ = some ⟨ts, .quoted (p :: seen)⟩ := by
  unfold escape
  split
  case h_8 hquote hslash _ _ _ _ _ =>
    split
    · next hc =>
      exact ⟨.unit c.toNat, .unit hc, scan_unit hc ts seen⟩
    · next hc =>
      refine ⟨.char c, .char c, ?_⟩
      have hstep : Scan.step ⟨ts, .quoted seen⟩ c = some ⟨ts, .quoted (.char c :: seen)⟩ :=
        (if_neg hquote).trans ((if_neg hslash).trans (if_neg hc))
      rw [List.foldlM_cons, hstep]
      rfl
  all_goals exact ⟨.char _, .char _, rfl⟩

theorem scan_escapes (cs : List Char) (ts : List Token) (seen : List Piece) :
    ∃ ps, List.Forall₂ Piece.Spells ps cs.reverse ∧
      (cs.flatMap escape).foldlM Scan.step ⟨ts, .quoted seen⟩ =
        some ⟨ts, .quoted (ps ++ seen)⟩ := by
  induction cs generalizing seen with
  | nil => exact ⟨[], .nil, rfl⟩
  | cons c cs ih =>
    obtain ⟨p, hp, hc⟩ := scan_escape c ts seen
    obtain ⟨ps, hps, hcs⟩ := ih (p :: seen)
    refine ⟨ps ++ [p], ?_, ?_⟩
    · rw [List.reverse_cons]
      exact List.rel_append hps (.cons hp .nil)
    · rw [List.flatMap_cons, List.foldlM_append, hc, List.append_assoc]
      exact hcs

theorem scan_quoted (t : String) (ts : List Token) :
    (quoted (some t)).foldlM Scan.step ⟨ts, .blank⟩ = some ⟨.text (some t) :: ts, .blank⟩ := by
  obtain ⟨ps, hps, hscan⟩ := scan_escapes t.toList ts []
  have hjoin : (joinPieces ps []).map String.ofList = some t := by
    rw [joinPieces_of_spells hps, List.reverse_reverse, List.append_nil, Option.map_some,
      String.ofList_toList]
  have hopen : Scan.step ⟨ts, .blank⟩ '"' = some ⟨ts, .quoted []⟩ := rfl
  rw [quoted, List.foldlM_cons, hopen, Option.bind_eq_bind, Option.bind_some, Option.getD_some,
    List.foldlM_append, hscan, List.append_nil, ← hjoin]
  rfl

end Texts

section Values

theorem scan_quoted_key {key : Option String} (h : key.isSome) (ts : List Token) :
    (quoted key).foldlM Scan.step ⟨ts, .blank⟩ = some ⟨.text key :: ts, .blank⟩ := by
  obtain ⟨t, rfl⟩ := Option.isSome_iff_exists.mp h
  exact scan_quoted t ts

theorem scan_mark {cs rest : List Char} {σ : Scan} {ts : List Token} {c : Char} {t : Token}
    (h : ∃ s, cs.foldlM Scan.step σ = some s ∧ s.Behind ts) (hc : mark? c = some t) :
    (cs ++ c :: rest).foldlM Scan.step σ = rest.foldlM Scan.step ⟨t :: ts, .blank⟩ := by
  obtain ⟨s, hscan, hs⟩ := h
  rw [List.foldlM_append, hscan, Option.bind_eq_bind, Option.bind_some, List.foldlM_cons,
    hs.step hc]
  rfl

theorem scan_member {key : Option String} {v : Json} {rest : List Char} {c : Char} {t : Token}
    {ts : List Token} (hkey : key.isSome) (hc : mark? c = some t)
    (hv : ∀ ts, ∃ s, (chars v).foldlM Scan.step ⟨ts, .blank⟩ = some s ∧
      s.Behind ((tokens v).reverse ++ ts)) :
    (quoted key ++ ':' :: (chars v ++ c :: rest)).foldlM Scan.step ⟨ts, .blank⟩ =
      rest.foldlM Scan.step ⟨t :: ((tokens v).reverse ++ .colon :: .text key :: ts), .blank⟩ := by
  rw [scan_mark ⟨_, scan_quoted_key hkey ts, .blank⟩ rfl]
  exact scan_mark (hv _) hc

mutual

theorem scan_chars : ∀ {v : Json} (_ : v.legible) (ts : List Token),
    ∃ s, (chars v).foldlM Scan.step ⟨ts, .blank⟩ = some s ∧
      s.Behind ((tokens v).reverse ++ ts)
  | .null, _, ts => scan_word (List.cons_ne_nil _ _) (by simp [endsWord, isBlank, mark?]) ts
  | .bool true, _, ts => scan_word (List.cons_ne_nil _ _) (by simp [endsWord, isBlank, mark?]) ts
  | .bool false, _, ts => scan_word (List.cons_ne_nil _ _) (by simp [endsWord, isBlank, mark?]) ts
  | .num n, _, ts => scan_numeral n ts
  | .str t, h, ts => ⟨_, scan_quoted_key h ts, .blank⟩
  | .arr items, h, ts => by
    have hlegible : legibleList items = true := by simpa [legible] using h
    have hitems := scan_charsList hlegible (.openList :: ts)
    refine ⟨_, hitems, ?_⟩
    rw [tokens, List.reverse_cons, List.append_assoc]
    exact .blank
  | .obj members, h, ts => by
    have hlegible : legibleMembers members = true := by simpa [legible] using h
    have hmembers := scan_charsMembers hlegible (.openObject :: ts)
    refine ⟨_, hmembers, ?_⟩
    rw [tokens, List.reverse_cons, List.append_assoc]
    exact .blank

theorem scan_charsList : ∀ {vs : List Json} (_ : legibleList vs) (ts : List Token),
    (charsList vs).foldlM Scan.step ⟨ts, .blank⟩ = some ⟨(tokensList vs).reverse ++ ts, .blank⟩
  | [], _, ts => rfl
  | [v], h, ts => by
    simp only [legibleList, Bool.and_true] at h
    rw [charsList, scan_mark (scan_chars h ts) rfl, tokensList]
    simp
  | v :: w :: vs, h, ts => by
    rw [legibleList, Bool.and_eq_true] at h
    rw [charsList, scan_mark (scan_chars h.1 ts) rfl, scan_charsList h.2, tokensList_cons]
    · simp
    · nofun

theorem scan_charsMembers : ∀ {ms : List (Option String × Json)} (_ : legibleMembers ms)
    (ts : List Token),
    (charsMembers ms).foldlM Scan.step ⟨ts, .blank⟩ =
      some ⟨(tokensMembers ms).reverse ++ ts, .blank⟩
  | [], _, ts => rfl
  | [(key, v)], h, ts => by
    simp only [legibleMembers, Bool.and_true, Bool.and_eq_true] at h
    rw [charsMembers, scan_member h.1 rfl (scan_chars h.2), tokensMembers]
    simp
  | (key, v) :: m :: ms, h, ts => by
    rw [legibleMembers, Bool.and_eq_true, Bool.and_eq_true] at h
    rw [charsMembers, scan_member h.1.1 rfl (scan_chars h.1.2), scan_charsMembers h.2,
      tokensMembers_cons]
    · simp
    · nofun

end

theorem tokens?_chars {v : Json} (h : v.legible) : tokens? (chars v) = some (tokens v) := by
  obtain ⟨s, hscan, hs⟩ := scan_chars h []
  rw [tokens?, hscan, Option.bind_some, hs.finish, List.append_nil, List.reverse_reverse]

end Values

end MarchingDrill.Json
