import LineBasic.Text.Fold
import LineBasic.Value
import Std.Data.TreeMap

/-!
# Maps

A map's keys are texts in lower case; numbers and truth values are keys by the text they print to.
-/

namespace LineBasic

set_option autoImplicit false

structure Dict where
  entries : Std.TreeMap String Value := ∅
deriving Inhabited

namespace Dict

/-- The key that a value stands for, if it can be one. -/
def key? : Value → Option String
  | .text s => some (Text.fold s)
  | .number x => some (Number.text x)
  | .bool b => some (boolText b)
  | _ => none

/-- What a missing key reads as. -/
def missing : Value := .number (-1)

def get (d : Dict) (key : String) : Value :=
  d.entries.getD key missing

def set (d : Dict) (key : String) (v : Value) : Dict :=
  ⟨d.entries.insert key v⟩

def size (d : Dict) : Nat :=
  d.entries.size

def toList (d : Dict) : List (String × Value) :=
  d.entries.toList

/-- The values in the order of their keys. -/
def values (d : Dict) : List Value :=
  d.toList.map (·.2)

/-- The map with other values, in the order of their keys. -/
def withValues (d : Dict) (vs : List Value) : Dict :=
  ⟨.ofList (d.entries.keys.zip vs)⟩

end Dict

end LineBasic
