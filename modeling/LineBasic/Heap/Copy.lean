import LineBasic.Heap

/-!
# Copying containers

A copy is made along the references. A container that is met for the first time gets an empty copy,
which a table remembers, so that the way back to it ends there; once everything that it holds is
copied, its copy is filled. Sharing and cycles are kept, between several values too.
-/

namespace LineBasic.Heap

set_option autoImplicit false

/-- A copy in progress. -/
structure Copying where
  /-- The heap with the copies made so far, some of them still empty. -/
  heap : Heap
  /-- The copies of the arrays that were met. -/
  grids : Std.TreeMap Ref Ref := ∅
  /-- The copies of the maps that were met. -/
  dicts : Std.TreeMap Ref Ref := ∅

namespace Copying

/-- Adds an empty copy of an array. -/
def openGrid (c : Copying) (r : Ref) : Ref × Copying :=
  let s := c.heap.grids.size
  (s, { c with
    heap := { c.heap with grids := c.heap.grids.push default }
    grids := c.grids.insert r s })

/-- Adds an empty copy of a map. -/
def openDict (c : Copying) (r : Ref) : Ref × Copying :=
  let s := c.heap.dicts.size
  (s, { c with
    heap := { c.heap with dicts := c.heap.dicts.push default }
    dicts := c.dicts.insert r s })

def fillGrid (c : Copying) (s : Ref) (g : Grid) : Copying :=
  { c with heap := { c.heap with grids := c.heap.grids.setIfInBounds s g } }

def fillDict (c : Copying) (s : Ref) (d : Dict) : Copying :=
  { c with heap := { c.heap with dicts := c.heap.dicts.setIfInBounds s d } }

/-- What a value is copied to, once it is. -/
def image (c : Copying) : Value → Value
  | .array r => .array (c.grids.getD r r)
  | .map r => .map (c.dicts.getD r r)
  | v => v

end Copying

/-- Copies a value of `h` with all that it holds. The fuel counts the containers around it. -/
def deepCopy (h : Heap) : Nat → Value → StateM Copying Value
  | fuel + 1, .array r => do
    match (← get).grids[r]? with
    | some s => pure (.array s)
    | none => do
      let s ← modifyGet (·.openGrid r)
      let cells ← (h.contents (.array r)).mapM (h.deepCopy fuel)
      modify (·.fillGrid s ((h.grid r).withCells cells))
      pure (.array s)
  | fuel + 1, .map r => do
    match (← get).dicts[r]? with
    | some s => pure (.map s)
    | none => do
      let s ← modifyGet (·.openDict r)
      let values ← (h.contents (.map r)).mapM (h.deepCopy fuel)
      modify (·.fillDict s ((h.dict r).withValues values))
      pure (.map s)
  | _, v => pure v

/-- More than the number of containers that can stand around a value. -/
def depth (h : Heap) : Nat :=
  h.grids.size + h.dicts.size + 1

/-- Copies several values with one table. -/
def copyAll (h : Heap) (vs : List Value) : List Value × Copying :=
  (vs.mapM (h.deepCopy h.depth)).run { heap := h }

/-- Copies everything that can be reached from the values, and says what becomes of a value. -/
def copyFrom (h : Heap) (roots : List Value) : (Value → Value) × Heap :=
  let (_, c) := h.copyAll roots
  (c.image, c.heap)

/-- A copy of one value with all that it holds. -/
def copy (h : Heap) (v : Value) : Value × Heap :=
  let (w, c) := (h.deepCopy h.depth v).run { heap := h }
  (w, c.heap)

end LineBasic.Heap
