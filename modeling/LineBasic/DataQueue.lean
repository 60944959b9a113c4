import LineBasic.Error
import LineBasic.Value

/-!
# Data for `read`

The values of all `data` statements in order, and how many of them were read.
-/

namespace LineBasic

set_option autoImplicit false

structure DataQueue where
  values : Array Value := #[]
  cursor : Nat := 0
deriving Inhabited

namespace DataQueue

def push (d : DataQueue) (v : Value) : DataQueue :=
  { d with values := d.values.push v }

def pushAll (d : DataQueue) (vs : List Value) : DataQueue :=
  vs.foldl push d

def read (d : DataQueue) : Except Error (Value × DataQueue) :=
  match d.values[d.cursor]? with
  | some v => .ok (v, { d with cursor := d.cursor + 1 })
  | none => .error { code := .outOfData, detail := "no data left to read" }

/-- Starts again with the first value. -/
def rewind (d : DataQueue) : DataQueue :=
  { d with cursor := 0 }

def remaining (d : DataQueue) : Nat :=
  d.values.size - d.cursor

def mapValues (d : DataQueue) (f : Value → Value) : DataQueue :=
  { d with values := d.values.map f }

end DataQueue

end LineBasic
