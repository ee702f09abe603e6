import MarchingDrill.Json.Token

/-!
Reading a JSON document: tokens are taken one at a time, with the arrays and objects that are still
open on a stack.
-/

namespace MarchingDrill.Json

inductive Frame where
  | items (done : List Json)
  | members (done : List (Option String × Json)) (key : Option String)

inductive Phase where
  | value
  | firstItem
  | firstKey
  | key (done : List (Option String × Json))
  | colon (done : List (Option String × Json)) (key : Option String)
  | complete (v : Json)

structure Progress where
  stack : List Frame
  phase : Phase

def ofWord? (cs : List Char) : Option Json :=
  if cs = ['n', 'u', 'l', 'l'] then some .null
  else if cs = ['t', 'r', 'u', 'e'] then some (.bool true)
  else if cs = ['f', 'a', 'l', 's', 'e'] then some (.bool false)
  else (Decimal.Numeral.ofChars? cs).map .num

def startValue (stack : List Frame) : Token → Option Progress
  | .openList => some ⟨.items [] :: stack, .firstItem⟩
  | .openObject => some ⟨stack, .firstKey⟩
  | .word cs => (ofWord? cs).map fun v => ⟨stack, .complete v⟩
  | .text t => some ⟨stack, .complete (.str t)⟩
  | _ => none

def afterValue (v : Json) : List Frame → Token → Option Progress
  | .items done :: stack, .comma => some ⟨.items (v :: done) :: stack, .value⟩
  | .items done :: stack, .closeList => some ⟨stack, .complete (.arr (v :: done).reverse)⟩
  | .members done key :: stack, .comma => some ⟨stack, .key ((key, v) :: done)⟩
  | .members done key :: stack, .closeObject =>
    some ⟨stack, .complete (.obj ((key, v) :: done).reverse)⟩
  | _, _ => none

def Progress.step (p : Progress) (t : Token) : Option Progress :=
  match p.phase with
  | .value => startValue p.stack t
  | .firstItem =>
    match p.stack, t with
    | .items [] :: stack, .closeList => some ⟨stack, .complete (.arr [])⟩
    | stack, t => startValue stack t
  | .firstKey =>
    match t with
    | .closeObject => some ⟨p.stack, .complete (.obj [])⟩
    | .text key => some ⟨p.stack, .colon [] key⟩
    | _ => none
  | .key done =>
    match t with
    | .text key => some ⟨p.stack, .colon done key⟩
    | _ => none
  | .colon done key =>
    match t with
    | .colon => some ⟨.members done key :: p.stack, .value⟩
    | _ => none
  | .complete v => afterValue v p.stack t

def Progress.finish : Progress → Option Json
  | ⟨[], .complete v⟩ => some v
  | _ => none

def ofTokens? (ts : List Token) : Option Json :=
  (ts.foldlM Progress.step ⟨[], .value⟩).bind Progress.finish

def ofText? (s : String) : Option Json :=
  (tokens? s.toList).bind ofTokens?

end MarchingDrill.Json
