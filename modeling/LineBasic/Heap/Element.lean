import LineBasic.Error
import LineBasic.Heap.Display

/-!
# Elements of containers

Reading and writing one cell of an array or one entry of a map, and the values that count as
numbers, with the errors that say what was wrong.
-/

namespace LineBasic

set_option autoImplicit false

def Error.typeMismatch (detail : String) : Error :=
  { code := .typeMismatch, detail := detail }

def Error.illegalCall (detail : String) : Error :=
  { code := .illegalFunctionCall, detail := detail }

namespace Heap

/-- The largest number that counts as an index, an address or a length. -/
def maxIndex : Nat := 4294967295

def toNumber (h : Heap) (v : Value) : Except Error Float :=
  match v.toNumber? with
  | some x => .ok x
  | none => .error (.typeMismatch (h.describe v ++ " is not a number"))

/-- The whole number from zero to `maxIndex` that a double is, if it is one. -/
def index? (x : Float) : Option Nat :=
  (Number.nat? x).filter (· ≤ maxIndex)

/-- A value as an index. -/
def toIndex (h : Heap) (v : Value) : Except Error Nat := do
  let x ← h.toNumber v
  match index? x with
  | some n => pure n
  | none => throw (.illegalCall (h.display v ++ " is not a valid index"))

def sizeError (h : Heap) : Grid.SizeFault → Error
  | .missing => .illegalCall "array sizes expected"
  | .notNumber v => .typeMismatch (h.display v ++ " is not a valid size")
  | .notSize v => .illegalCall (h.display v ++ " is not a valid size")
  | .tooLarge => { code := .outOfMemory, detail := "array too large" }

def indexError (display : Value → String) : Grid.IndexFault → Error
  | .count expected given => {
      code := .subscriptOutOfRange
      detail := "expected " ++ toString expected ++ " indices, got " ++ toString given }
  | .notNumber v => .typeMismatch (display v ++ " is not a valid index")
  | .outside v => {
      code := .subscriptOutOfRange
      detail := "index " ++ display v ++ " out of range" }

def notContainer (v : Value) : Error :=
  .typeMismatch (v.typeName ++ " is not an array or map")

/-- The map key that a list of values stands for; `missing` is the complaint if it is not one
value. -/
def mapKey (missing : String) : List Value → Except Error String
  | [v] =>
    match Dict.key? v with
    | some key => .ok key
    | none => .error (.typeMismatch (v.typeName ++ " is not a valid key"))
  | _ => .error (.illegalCall missing)

/-- A new array of the given sizes. -/
def dim (h : Heap) (sizes : List Value) : Except Error (Value × Heap) :=
  match Grid.ofSizes sizes with
  | .ok g => .ok (h.newArray g)
  | .error fault => .error (h.sizeError fault)

/-- What an element access is for: it decides how its errors are worded. -/
inductive Access where
  | reading
  | writing
deriving DecidableEq, Repr

/-- The place in a container that a list of keys selects. -/
def locate (h : Heap) (access : Access) (container : Value) (keys : List Value) :
    Except Error Slot :=
  match container with
  | .array r =>
    match (h.grid r).offset keys with
    | .ok offset => .ok (.cell r offset)
    | .error fault =>
      .error (indexError (if access = .writing then h.displayWriting r else h.display) fault)
  | .map r =>
    (mapKey (if access = .writing then "key and value expected" else "map key expected") keys).map
      (.entry r)
  | v => .error (notContainer v)

def getElement (h : Heap) (container : Value) (keys : List Value) : Except Error Value :=
  (h.locate .reading container keys).map h.read

def setElement (h : Heap) (container : Value) (keys : List Value) (value : Value) :
    Except Error Heap :=
  (h.locate .writing container keys).map fun slot => h.write slot value

end Heap

end LineBasic
