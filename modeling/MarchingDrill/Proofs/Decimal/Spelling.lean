import Mathlib
import MarchingDrill.Decimal.Numeral

/-! Spelling: every numeral is read back from its characters. -/

namespace MarchingDrill.Decimal.Numeral

theorem leadingDigits_append {ds cs : List Char} (hds : ∀ d ∈ ds, d.isDigit)
    (hcs : ∀ c ∈ cs.head?, ¬c.isDigit) : leadingDigits (ds ++ cs) = ds := by
  have hnone : cs.takeWhile Char.isDigit = [] := by
    cases cs with
    | nil => rfl
    | cons c cs => exact List.takeWhile_cons_of_neg (hcs c rfl)
  rw [leadingDigits, List.takeWhile_append_of_pos hds, hnone, List.append_nil]

theorem afterDigits_append {ds cs : List Char} (hds : ∀ d ∈ ds, d.isDigit)
    (hcs : ∀ c ∈ cs.head?, ¬c.isDigit) : afterDigits (ds ++ cs) = cs := by
  rw [afterDigits, List.dropWhile_append_of_pos hds]
  cases cs with
  | nil => rfl
  | cons c cs => exact List.dropWhile_cons_of_neg (hcs c rfl)

theorem isDigit_toDigits (n : Nat) : ∀ d ∈ Nat.toDigits 10 n, d.isDigit :=
  fun _ hd => Nat.isDigit_of_mem_toDigits (by decide) (by decide) hd

theorem isDigit_head_toDigits (n : Nat) : ∃ c cs, Nat.toDigits 10 n = c :: cs ∧ c.isDigit := by
  have hdigits := isDigit_toDigits n
  cases h : Nat.toDigits 10 n with
  | nil => exact absurd h Nat.toDigits_ne_nil
  | cons c cs =>
    rw [h] at hdigits
    exact ⟨c, cs, rfl, hdigits c List.mem_cons_self⟩

theorem toDigits_eq_cons {n : Nat} (hn : 0 < n) :
    ∃ c cs, Nat.toDigits 10 n = c :: cs ∧ c ≠ '0' := by
  induction n using Nat.strong_induction_on with
  | _ n ih =>
    by_cases hsmall : n < 10
    · have hdigit : ∀ k < 10, 0 < k → Nat.digitChar k ≠ '0' := by decide
      exact ⟨n.digitChar, [], Nat.toDigits_of_lt_base hsmall, hdigit n hsmall hn⟩
    · obtain ⟨c, cs, hcs, hc⟩ := ih (n / 10) (by omega) (by omega)
      rw [Nat.toDigits_of_base_le (by decide) (by omega), hcs]
      exact ⟨c, cs ++ _, rfl, hc⟩

theorem whole?_toDigits (n : Nat) : whole? (Nat.toDigits 10 n) = some n := by
  rcases Nat.eq_zero_or_pos n with rfl | hn
  · rfl
  · have hvalue := @Nat.ofDigitChars_ten_toDigits n
    obtain ⟨c, cs, hcs, hc⟩ := toDigits_eq_cons hn
    rw [hcs] at hvalue ⊢
    unfold whole?
    split
    · next h => cases h
    · next h => exact absurd (List.cons.inj h).1 hc
    · next h => exact absurd (List.cons.inj h).1 hc
    · rw [hvalue]

theorem exponentDigits?_toDigits (sign : Int) (n : Nat) :
    exponentDigits? sign (Nat.toDigits 10 n) = some (some (sign * n)) := by
  have hempty : (Nat.toDigits 10 n).isEmpty = false := by
    simp
  have hall : (Nat.toDigits 10 n).all Char.isDigit = true := by
    simpa using isDigit_toDigits n
  rw [exponentDigits?, hempty, hall, Nat.ofDigitChars_ten_toDigits]
  rfl

theorem exponent?_exponentChars (e : Int) : exponent? (exponentChars e) = some (some e) := by
  unfold exponentChars
  by_cases he : e < 0
  · rw [if_pos he]
    refine (exponentDigits?_toDigits (-1) e.natAbs).trans ?_
    congr 2
    omega
  · rw [if_neg he]
    refine (exponentDigits?_toDigits 1 e.natAbs).trans ?_
    congr 2
    omega

def tailChars (n : Numeral) : List Char := n.exponent.elim [] exponentChars

theorem exponent?_tailChars (n : Numeral) : exponent? n.tailChars = some n.exponent := by
  rw [tailChars]
  cases n.exponent with
  | none => rfl
  | some e => exact exponent?_exponentChars e

theorem digit_digitChar (d : Fin 10) : digit (Nat.digitChar d.val) = d := by
  decide +revert

theorem unsigned?_chars (n : Numeral) (negative : Bool) :
    unsigned? negative (Nat.toDigits 10 n.whole ++ (fractionChars n.fraction ++ n.tailChars)) =
      some { n with negative } := by
  have htail : ∀ c ∈ n.tailChars.head?, ¬c.isDigit ∧ c ≠ '.' := by
    rw [tailChars]
    cases n.exponent with
    | none => nofun
    | some e =>
      rintro c ⟨⟩
      decide
  have hrest : ∀ c ∈ (fractionChars n.fraction ++ n.tailChars).head?, ¬c.isDigit := by
    cases n.fraction with
    | nil => exact fun c hc => (htail c hc).1
    | cons d ds =>
      rintro c ⟨⟩
      decide
  rw [unsigned?, leadingDigits_append (isDigit_toDigits n.whole) hrest,
    afterDigits_append (isDigit_toDigits n.whole) hrest, whole?_toDigits]
  cases hfraction : n.fraction with
  | nil =>
    rw [fractionChars, List.nil_append, Option.bind_eq_bind, Option.bind_some]
    split
    · next cs heq =>
      rw [heq] at htail
      exact absurd rfl (htail '.' rfl).2
    · rw [exponent?_tailChars, ← hfraction]
      rfl
  | cons d ds =>
    have hdigits : ∀ c ∈ n.fraction.map (fun d : Fin 10 => Nat.digitChar d.val), c.isDigit := by
      have hdigit : ∀ d : Fin 10, (Nat.digitChar d.val).isDigit := by decide
      intro c hc
      obtain ⟨d, -, rfl⟩ := List.mem_map.mp hc
      exact hdigit d
    have hafter := fun c hc => (htail c hc).1
    have hpoint : fractionChars (d :: ds) ++ n.tailChars =
        '.' :: (n.fraction.map (fun d : Fin 10 => Nat.digitChar d.val) ++ n.tailChars) := by
      rw [hfraction]
      rfl
    have hback : (n.fraction.map fun d : Fin 10 => Nat.digitChar d.val).map digit =
        n.fraction := by
      rw [List.map_map]
      exact List.map_id'' digit_digitChar n.fraction
    have hempty : (n.fraction.map fun d : Fin 10 => Nat.digitChar d.val).isEmpty = false := by
      rw [hfraction]
      rfl
    rw [hpoint, Option.bind_eq_bind, Option.bind_some]
    simp only [leadingDigits_append hdigits hafter, afterDigits_append hdigits hafter,
      exponent?_tailChars, hback, hempty, ← hfraction]
    rfl

theorem ofChars?_chars (n : Numeral) : ofChars? n.chars = some n := by
  obtain ⟨negative, whole, fraction, exponent⟩ := n
  rw [chars, List.append_assoc, List.append_assoc]
  cases negative with
  | true => exact unsigned?_chars _ true
  | false =>
    have hread := unsigned?_chars ⟨false, whole, fraction, exponent⟩ false
    obtain ⟨c, cs, hcs, hc⟩ := isDigit_head_toDigits whole
    rw [hcs] at hread ⊢
    unfold ofChars?
    split
    · next h =>
      rw [(List.cons.inj h).1] at hc
      cases hc
    · exact hread

theorem chars_eq_cons (n : Numeral) :
    ∃ c cs, n.chars = c :: cs ∧ (c.isDigit ∨ c = '-') := by
  obtain ⟨negative, whole, fraction, exponent⟩ := n
  cases negative with
  | true => exact ⟨'-', _, rfl, .inr rfl⟩
  | false =>
    obtain ⟨c, cs, hcs, hc⟩ := isDigit_head_toDigits whole
    rw [chars, List.append_assoc, List.append_assoc, hcs]
    exact ⟨c, _, rfl, .inl hc⟩

theorem mem_chars {n : Numeral} {c : Char} (h : c ∈ n.chars) :
    c.isDigit ∨ c = '-' ∨ c = '+' ∨ c = '.' ∨ c = 'e' := by
  have hdigit : ∀ d : Fin 10, (Nat.digitChar d.val).isDigit := by decide
  obtain ⟨negative, whole, fraction, exponent⟩ := n
  simp only [chars, List.mem_append] at h
  obtain ((h | h) | h) | h := h
  · cases negative <;> simp_all
  · exact .inl (isDigit_toDigits whole c h)
  · cases fraction with
    | nil => cases h
    | cons d ds =>
      obtain rfl | h := List.mem_cons.mp h
      · simp
      · obtain ⟨d', -, rfl⟩ := List.mem_map.mp h
        exact .inl (hdigit d')
  · cases exponent with
    | none => cases h
    | some e =>
      simp only [Option.elim_some, exponentChars, List.mem_cons] at h
      obtain rfl | rfl | h := h
      · simp
      · split <;> simp
      · exact .inl (isDigit_toDigits _ c h)

end MarchingDrill.Decimal.Numeral
