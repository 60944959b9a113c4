import LineBasic.Heap

/-!
# Values as text

Containers may hold themselves, so a text shows four levels of them and elides the rest. A container
that is being written to is elided as well.
-/

namespace LineBasic.Heap

set_option autoImplicit false

/-- How many levels of containers a text shows. -/
def shownLevels : Nat := 4

/-- The text of a value with at most `levels` levels of containers and without the array
`hidden`. -/
def displayWithin (h : Heap) (hidden : Option Ref) : Nat → Value → String
  | _, .number x => Number.text x
  | _, .text s => s
  | _, .bool b => boolText b
  | _, .mark c => c.toString
  | _, .name s => s
  | 0, .array _ => "[...]"
  | 0, .map _ => "\x7b...\x7d"
  | levels + 1, .array r =>
    if hidden = some r then "[...]"
    else
      let cells := (h.grid r).cells.toList.map (displayWithin h hidden levels)
      "[" ++ ", ".intercalate cells ++ "]"
  | levels + 1, .map r =>
    let entry (e : String × Value) := e.1 ++ ": " ++ displayWithin h hidden levels e.2
    "\x7b" ++ ", ".intercalate ((h.dict r).toList.map entry) ++ "\x7d"

/-- The text of a value. -/
def display (h : Heap) (v : Value) : String :=
  h.displayWithin none shownLevels v

/-- The text of a value while the array `r` is being written to. -/
def displayWriting (h : Heap) (r : Ref) (v : Value) : String :=
  h.displayWithin (some r) shownLevels v

/-- A value as messages name it: texts in quotes, others with their type. -/
def describe (h : Heap) : Value → String
  | .text s => "\"" ++ s ++ "\""
  | v => v.typeName ++ " " ++ h.display v

end LineBasic.Heap
