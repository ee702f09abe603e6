/-!
The symbols that dots are drawn with. Dots of one symbol share their continuities.
-/

namespace MarchingDrill

inductive Symbol where
  | plain
  | solid
  | plainForwardSlash
  | solidForwardSlash
  | plainBackslash
  | solidBackslash
  | plainCross
  | solidCross
deriving DecidableEq, Repr, Inhabited

namespace Symbol

def all : List Symbol :=
  [plain, solid, plainForwardSlash, solidForwardSlash, plainBackslash, solidBackslash, plainCross,
    solidCross]

def name : Symbol → String
  | plain => "plain"
  | solid => "solid"
  | plainForwardSlash => "plain-forwardslash"
  | solidForwardSlash => "solid-forwardslash"
  | plainBackslash => "plain-backslash"
  | solidBackslash => "solid-backslash"
  | plainCross => "plain-x"
  | solidCross => "solid-x"

def ofName? (s : String) : Option Symbol := all.find? (·.name = s)

def isPlain : Symbol → Bool
  | plain | plainForwardSlash | plainBackslash | plainCross => true
  | _ => false

def hasForwardSlash : Symbol → Bool
  | plainForwardSlash | solidForwardSlash | plainCross | solidCross => true
  | _ => false

def hasBackslash : Symbol → Bool
  | plainBackslash | solidBackslash | plainCross | solidCross => true
  | _ => false

def distinct (ss : List Symbol) : List Symbol := all.filter (· ∈ ss)

end Symbol

end MarchingDrill
