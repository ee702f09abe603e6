import MarchingDrill.Json.Value

/-!
The tokens of a JSON document, found by a machine that takes one character at a time.
-/

namespace MarchingDrill.Json

inductive Token where
  | openList
  | closeList
  | openObject
  | closeObject
  | colon
  | comma
  | word (cs : List Char)
  | text (t : Option String)

inductive Piece where
  | char (c : Char)
  | unit (u : Nat)

def isHighSurrogate (u : Nat) : Bool := 0xD800 ≤ u && u < 0xDC00

def isLowSurrogate (u : Nat) : Bool := 0xDC00 ≤ u && u < 0xE000

def pairedChar (high low : Nat) : Char :=
  Char.ofNat (0x10000 + (high - 0xD800) * 0x400 + (low - 0xDC00))

/-- Puts the pieces, latest first, in front of the characters that follow them. Fails when a
surrogate has no partner. -/
def joinPieces : List Piece → List Char → Option (List Char)
  | [], done => some done
  | .char c :: ps, done => joinPieces ps (c :: done)
  | [.unit u], done =>
    if isHighSurrogate u || isLowSurrogate u then none else some (Char.ofNat u :: done)
  | .unit u :: .char c :: ps, done =>
    if isHighSurrogate u || isLowSurrogate u then none
    else joinPieces ps (c :: Char.ofNat u :: done)
  | .unit low :: .unit high :: ps, done =>
    if isHighSurrogate high && isLowSurrogate low then joinPieces ps (pairedChar high low :: done)
    else if isHighSurrogate low || isLowSurrogate low then none
    else joinPieces (.unit high :: ps) (Char.ofNat low :: done)

inductive Pending where
  | blank
  | word (seen : List Char)
  | quoted (seen : List Piece)
  | escape (seen : List Piece)
  | unit (seen : List Piece) (digits value : Nat)

structure Scan where
  tokens : List Token
  pending : Pending

def isBlank (c : Char) : Bool := c = ' ' || c = '\t' || c = '\n' || c = '\r'

def mark? : Char → Option Token
  | '[' => some .openList
  | ']' => some .closeList
  | '\x7b' => some .openObject
  | '\x7d' => some .closeObject
  | ':' => some .colon
  | ',' => some .comma
  | _ => none

def endsWord (c : Char) : Bool := isBlank c || (mark? c).isSome || c = '"'

def unescape? : Char → Option Char
  | '"' => some '"'
  | '\\' => some '\\'
  | '/' => some '/'
  | 'b' => some '\x08'
  | 'f' => some '\x0c'
  | 'n' => some '\n'
  | 'r' => some '\r'
  | 't' => some '\t'
  | _ => none

def hexDigit? (c : Char) : Option Nat :=
  if '0' ≤ c ∧ c ≤ '9' then some (c.toNat - '0'.toNat)
  else if 'a' ≤ c ∧ c ≤ 'f' then some (c.toNat - 'a'.toNat + 10)
  else if 'A' ≤ c ∧ c ≤ 'F' then some (c.toNat - 'A'.toNat + 10)
  else none

def startToken (tokens : List Token) (c : Char) : Scan :=
  if isBlank c then ⟨tokens, .blank⟩
  else match mark? c with
    | some t => ⟨t :: tokens, .blank⟩
    | none => ⟨tokens, if c = '"' then .quoted [] else .word [c]⟩

def Scan.step (s : Scan) (c : Char) : Option Scan :=
  match s.pending with
  | .blank => some (startToken s.tokens c)
  | .word seen =>
    if endsWord c then some (startToken (.word seen.reverse :: s.tokens) c)
    else some ⟨s.tokens, .word (c :: seen)⟩
  | .quoted seen =>
    if c = '"' then
      some ⟨.text ((joinPieces seen []).map String.ofList) :: s.tokens, .blank⟩
    else if c = '\\' then some ⟨s.tokens, .escape seen⟩
    -- control characters have to be escaped inside quotes
    else if c < ' ' then none
    else some ⟨s.tokens, .quoted (.char c :: seen)⟩
  | .escape seen =>
    if c = 'u' then some ⟨s.tokens, .unit seen 0 0⟩
    else (unescape? c).map fun d => ⟨s.tokens, .quoted (.char d :: seen)⟩
  | .unit seen digits value =>
    (hexDigit? c).map fun d =>
      if digits = 3 then ⟨s.tokens, .quoted (.unit (16 * value + d) :: seen)⟩
      else ⟨s.tokens, .unit seen (digits + 1) (16 * value + d)⟩

def Scan.finish (s : Scan) : Option (List Token) :=
  match s.pending with
  | .blank => some s.tokens.reverse
  | .word seen => some (.word seen.reverse :: s.tokens).reverse
  | _ => none

def tokens? (cs : List Char) : Option (List Token) :=
  (cs.foldlM Scan.step ⟨[], .blank⟩).bind Scan.finish

end MarchingDrill.Json
