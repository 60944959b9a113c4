import LineBasic.Number.Shortest

/-!
# Values

Arrays and maps are shared, so a value holds a reference to one of them, and two such values are
equal when they refer to the same container. What a container holds is the heap's business.
-/

namespace LineBasic

set_option autoImplicit false

/-- The place of an array or of a map in the heap. -/
abbrev Ref := Nat

inductive Value where
  | number (value : Float)
  | text (value : String)
  | bool (value : Bool)
  /-- A separator passed through to `print`. -/
  | mark (char : Char)
  /-- A name handed over instead of its value. -/
  | name (name : String)
  | array (ref : Ref)
  | map (ref : Ref)
deriving DecidableEq, Repr, Inhabited

def boolText (b : Bool) : String :=
  if b then "true" else "false"

namespace Value

def typeName : Value → String
  | number _ => "number"
  | text _ => "string"
  | bool _ => "boolean"
  | mark _ => "separator"
  | name _ => "name"
  | array _ => "array"
  | map _ => "map"

def isContainer : Value → Bool
  | array _ | map _ => true
  | _ => false

/-- Whether a value counts as true: not zero, not undefined, not the empty text. -/
def isTruthy : Value → Bool
  | number x => x != 0 && !x.isNaN
  | text s => !s.isEmpty
  | bool b => b
  | mark _ | name _ | array _ | map _ => true

/-- Numbers and truth values as arithmetic operands. -/
def toNumber? : Value → Option Float
  | number x => some x
  | bool b => some (if b then 1 else 0)
  | _ => none

/-- Equality of values of one kind: numbers as numbers, containers as references. -/
def same : Value → Value → Bool
  | number x, number y => x == y
  | text s, text t => s == t
  | bool a, bool b => a == b
  | mark c, mark d => c == d
  | name s, name t => s == t
  | array r, array s => r == s
  | map r, map s => r == s
  | _, _ => false

end Value

end LineBasic
