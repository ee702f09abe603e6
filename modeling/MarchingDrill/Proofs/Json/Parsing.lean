import MarchingDrill.Proofs.Json.Scanning

/-! Parsing: a value is read back from its text. -/

namespace MarchingDrill.Json

open Decimal

theorem ofWord?_chars (n : Numeral) : ofWord? n.chars = some (.num n) := by
  have hnot : ∀ c cs, ¬c.isDigit → c ≠ '-' → n.chars ≠ c :: cs := by
    intro c cs hdigit hminus h
    obtain ⟨d, ds, hds, hd⟩ := n.chars_eq_cons
    rw [h] at hds
    rw [← (List.cons.inj hds).1] at hd
    exact hd.elim hdigit hminus
  rw [ofWord?, if_neg (hnot _ _ (by decide) (by decide)), if_neg (hnot _ _ (by decide) (by decide)),
    if_neg (hnot _ _ (by decide) (by decide)), Numeral.ofChars?_chars, Option.map_some]

theorem parse_first_item (v : Json) (rest : List Token) (stack : List Frame) :
    (tokens v ++ rest).foldlM Progress.step ⟨.items [] :: stack, .firstItem⟩ =
      (tokens v ++ rest).foldlM Progress.step ⟨.items [] :: stack, .value⟩ := by
  cases v <;> rfl

mutual

theorem parse_tokens : ∀ (v : Json) (stack : List Frame),
    (tokens v).foldlM Progress.step ⟨stack, .value⟩ = some ⟨stack, .complete v⟩
  | .null, _ => rfl
  | .bool true, _ => rfl
  | .bool false, _ => rfl
  | .num n, stack => by
    have hstep : Progress.step ⟨stack, .value⟩ (.word n.chars) =
        some ⟨stack, .complete (.num n)⟩ := congrArg (Option.map _) (ofWord?_chars n)
    rw [tokens, List.foldlM_cons, chars, hstep]
    · rfl
    all_goals nofun
  | .str _, _ => rfl
  | .arr items, stack => by
    have hitems := parse_tokensList items [] stack
    rw [tokens, List.foldlM_cons]
    rcases items with _ | ⟨v, _ | ⟨w, vs⟩⟩
    · rfl
    · have hfirst := parse_first_item v [.closeList] stack
      exact hfirst.trans (hitems (List.cons_ne_nil _ _))
    · have hfirst := parse_first_item v (.comma :: tokensList (w :: vs)) stack
      rw [tokensList_cons] at hitems ⊢
      exact hfirst.trans (hitems (List.cons_ne_nil _ _))
  | .obj members, stack => by
    have hmembers := parse_tokensMembers members [] stack
    rw [tokens, List.foldlM_cons]
    rcases members with _ | ⟨⟨key, v⟩, _ | ⟨m, ms⟩⟩
    · rfl
    · exact hmembers (List.cons_ne_nil _ _)
    · rw [tokensMembers_cons] at hmembers ⊢
      exact hmembers (List.cons_ne_nil _ _)

theorem parse_tokensList : ∀ (vs done : List Json) (stack : List Frame) (_ : vs ≠ []),
    (tokensList vs).foldlM Progress.step ⟨.items done :: stack, .value⟩ =
      some ⟨stack, .complete (.arr (done.reverse ++ vs))⟩
  | [], _, _, hne => absurd rfl hne
  | [v], done, stack, _ => by
    rw [tokensList, List.foldlM_append, parse_tokens v, ← List.reverse_cons]
    rfl
  | v :: w :: vs, done, stack, _ => by
    have hitems := parse_tokensList (w :: vs) (v :: done) stack (List.cons_ne_nil _ _)
    rw [List.reverse_cons, List.append_assoc] at hitems
    rw [tokensList_cons, List.foldlM_append, parse_tokens v]
    exact hitems

theorem parse_tokensMembers : ∀ (ms done : List (Option String × Json)) (stack : List Frame)
    (_ : ms ≠ []), (tokensMembers ms).foldlM Progress.step ⟨stack, .key done⟩ =
      some ⟨stack, .complete (.obj (done.reverse ++ ms))⟩
  | [], _, _, hne => absurd rfl hne
  | [(key, v)], done, stack, _ => by
    have hvalue := parse_tokens v (.members done key :: stack)
    rw [tokensMembers, ← List.reverse_cons]
    change (tokens v ++ _).foldlM Progress.step ⟨.members done key :: stack, .value⟩ = _
    rw [List.foldlM_append, hvalue]
    rfl
  | (key, v) :: m :: ms, done, stack, _ => by
    have hvalue := parse_tokens v (.members done key :: stack)
    have hmembers := parse_tokensMembers (m :: ms) ((key, v) :: done) stack
      (List.cons_ne_nil _ _)
    rw [List.reverse_cons, List.append_assoc] at hmembers
    rw [tokensMembers_cons]
    change (tokens v ++ _).foldlM Progress.step ⟨.members done key :: stack, .value⟩ = _
    rw [List.foldlM_append, hvalue]
    exact hmembers

end

theorem ofTokens?_tokens (v : Json) : ofTokens? (tokens v) = some v := by
  rw [ofTokens?, parse_tokens, Option.bind_some]
  rfl

theorem ofText?_toText {v : Json} (h : v.legible) : ofText? v.toText = some v := by
  rw [ofText?, toText, String.toList_ofList, tokens?_chars h, Option.bind_some, ofTokens?_tokens]

end MarchingDrill.Json
