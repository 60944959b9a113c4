import LineBasic.Error

/-!
# Stacks of bounded size
-/

namespace LineBasic

set_option autoImplicit false

/-- A stack that refuses to grow past its limit. -/
structure BoundedStack (α : Type) where
  limit : Nat
  /-- The complaint about a push onto a full stack. -/
  overflow : String
  items : Array α := #[]

namespace BoundedStack

variable {α : Type}

def clear (s : BoundedStack α) : BoundedStack α :=
  { s with items := #[] }

def size (s : BoundedStack α) : Nat :=
  s.items.size

/-- Why nothing can be pushed: the stack is full. -/
def overflow? (s : BoundedStack α) : Option Error :=
  if s.limit ≤ s.size then some { code := .outOfMemory, detail := s.overflow } else none

/-- Adds an item without looking at the limit. -/
def add (s : BoundedStack α) (a : α) : BoundedStack α :=
  { s with items := s.items.push a }

def push (s : BoundedStack α) (a : α) : Except Error (BoundedStack α) :=
  match s.overflow? with
  | some e => .error e
  | none => .ok (s.add a)

/-- The item pushed last. -/
def top? (s : BoundedStack α) : Option α :=
  s.items.back?

/-- The stack without the item pushed last. -/
def pop (s : BoundedStack α) : BoundedStack α :=
  { s with items := s.items.pop }

/-- The limit of a stack that is not given one. -/
def defaultLimit : Nat := 65536

end BoundedStack

end LineBasic
