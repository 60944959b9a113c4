import LineBasic.Dict
import LineBasic.Grid

/-!
# The heap

All arrays and all maps of a machine, by reference. Containers are never removed, so a reference
stays valid; one that was never given out reads as an empty container.
-/

namespace LineBasic

set_option autoImplicit false

structure Heap where
  grids : Array Grid := #[]
  dicts : Array Dict := #[]
deriving Inhabited

/-- A cell of an array or an entry of a map. -/
inductive Slot where
  | cell (ref : Ref) (offset : Nat)
  | entry (ref : Ref) (key : String)
deriving DecidableEq, Repr

namespace Heap

def grid (h : Heap) (r : Ref) : Grid :=
  h.grids.getD r default

def dict (h : Heap) (r : Ref) : Dict :=
  h.dicts.getD r default

def newArray (h : Heap) (g : Grid) : Value × Heap :=
  (.array h.grids.size, { h with grids := h.grids.push g })

def newMap (h : Heap) : Value × Heap :=
  (.map h.dicts.size, { h with dicts := h.dicts.push {} })

/-- Reads a cell or an entry; a missing entry has the value for that. -/
def read (h : Heap) : Slot → Value
  | .cell r offset => (h.grid r).get offset
  | .entry r key => (h.dict r).get key

/-- Writes a cell or an entry. -/
def write (h : Heap) (slot : Slot) (v : Value) : Heap :=
  match slot with
  | .cell r offset => { h with grids := h.grids.modify r (·.set offset v) }
  | .entry r key => { h with dicts := h.dicts.modify r (·.set key v) }

/-- The values that a container holds. -/
def contents (h : Heap) : Value → List Value
  | .array r => (h.grid r).cells.toList
  | .map r => (h.dict r).values
  | _ => []

end Heap

end LineBasic
