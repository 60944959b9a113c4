import LineBasic.Number.Binary
import LineBasic.Value

/-!
# Arrays

An array has a fixed number of cells in as many dimensions as it has sizes. Indices count from one,
and the last index runs fastest.
-/

namespace LineBasic

set_option autoImplicit false

structure Grid where
  sizes : List Nat
  cells : Array Value
deriving Inhabited, Repr

namespace Grid

/-- Why a list of values is no list of sizes. -/
inductive SizeFault where
  | missing
  | notNumber (value : Value)
  | notSize (value : Value)
  | tooLarge
deriving Repr

/-- Why a list of values selects no cell. -/
inductive IndexFault where
  | count (expected given : Nat)
  | notNumber (value : Value)
  | outside (value : Value)
deriving Repr

/-- The most cells that an array can have. -/
def maxCells : Nat := 16777216

/-- Reads sizes, whose product with `total` is the number of cells. -/
def readSizes : List Value → Nat → Except SizeFault (List Nat)
  | [], _ => .ok []
  | .number x :: vs, total =>
    match Number.nat? x with
    | some (n + 1) =>
      if maxCells < total * (n + 1) then .error .tooLarge
      else (readSizes vs (total * (n + 1))).map ((n + 1) :: ·)
    | _ => .error (.notSize (.number x))
  | v :: _, _ => .error (.notNumber v)

/-- The number of cells for a list of sizes. -/
def volume (sizes : List Nat) : Nat :=
  sizes.foldl (· * ·) 1

/-- A new array full of zeros. -/
def ofSizes (sizes : List Value) : Except SizeFault Grid :=
  if sizes.isEmpty then .error .missing
  else (readSizes sizes 1).map fun ns => ⟨ns, Array.replicate (volume ns) (.number 0)⟩

/-- The offset of a cell, given the offset `offset` that the indices before add up to. -/
def offsetFrom : Nat → List Value → List Nat → Except IndexFault Nat
  | offset, .number x :: vs, size :: sizes =>
    match Number.nat? x with
    | some (n + 1) =>
      if n < size then offsetFrom (offset * size + n) vs sizes
      else .error (.outside (.number x))
    | _ => .error (.outside (.number x))
  | _, v :: _, _ :: _ => .error (.notNumber v)
  | offset, _, _ => .ok offset

/-- The offset of the cell that the indices select. -/
def offset (g : Grid) (indices : List Value) : Except IndexFault Nat :=
  if indices.length ≠ g.sizes.length then .error (.count g.sizes.length indices.length)
  else offsetFrom 0 indices g.sizes

def get (g : Grid) (offset : Nat) : Value :=
  g.cells.getD offset (.number 0)

def set (g : Grid) (offset : Nat) (v : Value) : Grid :=
  { g with cells := g.cells.setIfInBounds offset v }

def size (g : Grid) : Nat :=
  g.cells.size

/-- The array with other cells. -/
def withCells (g : Grid) (vs : List Value) : Grid :=
  { g with cells := vs.toArray }

end Grid

end LineBasic
