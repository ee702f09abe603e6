import MarchingDrill.Json.Value

/-!
Writing a JSON document without any blanks.
-/

namespace MarchingDrill.Json

def escape (c : Char) : List Char :=
  match c with
  | '"' => ['\\', '"']
  | '\\' => ['\\', '\\']
  | '\x08' => ['\\', 'b']
  | '\x0c' => ['\\', 'f']
  | '\n' => ['\\', 'n']
  | '\r' => ['\\', 'r']
  | '\t' => ['\\', 't']
  | c =>
    if c < ' ' then
      ['\\', 'u', '0', '0', Nat.digitChar (c.toNat / 16), Nat.digitChar (c.toNat % 16)]
    else [c]

def quoted (t : Option String) : List Char :=
  '"' :: ((t.getD "").toList.flatMap escape ++ ['"'])

mutual

def chars : Json → List Char
  | .null => ['n', 'u', 'l', 'l']
  | .bool true => ['t', 'r', 'u', 'e']
  | .bool false => ['f', 'a', 'l', 's', 'e']
  | .num n => n.chars
  | .str t => quoted t
  | .arr items => '[' :: charsList items
  | .obj members => '\x7b' :: charsMembers members

def charsList : List Json → List Char
  | [] => [']']
  | [v] => chars v ++ [']']
  | v :: vs => chars v ++ ',' :: charsList vs

def charsMembers : List (Option String × Json) → List Char
  | [] => ['\x7d']
  | [(key, v)] => quoted key ++ ':' :: (chars v ++ ['\x7d'])
  | (key, v) :: ms => quoted key ++ ':' :: (chars v ++ ',' :: charsMembers ms)

end

def toText (v : Json) : String := String.ofList v.chars

end MarchingDrill.Json
