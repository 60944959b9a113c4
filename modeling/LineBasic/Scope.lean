import LineBasic.Heap.Copy

/-!
# Variables and constants

Constants live beside the variables. A variable hides the constant of the same name, and clearing
the variables brings the constant back.
-/

namespace LineBasic

set_option autoImplicit false

structure Scope where
  vars : Std.TreeMap String Value := ∅
  constants : Std.TreeMap String Value := ∅
deriving Inhabited

namespace Scope

/-- The ratio of a circle's circumference to its diameter. -/
def pi : Float := 3.141592653589793

/-- Constants are named in lower case. -/
def define (s : Scope) (name : String) (v : Value) : Scope :=
  { s with constants := s.constants.insert (Text.fold name) v }

/-- A scope with the constants `pi` and `tau`. -/
def standard : Scope :=
  (({} : Scope).define "pi" (.number pi)).define "tau" (.number (2 * pi))

def clear (s : Scope) : Scope :=
  { s with vars := ∅ }

def fetch (s : Scope) (name : String) : Option Value :=
  match s.vars[name]? with
  | some v => some v
  | none => s.constants[name]?

def contains (s : Scope) (name : String) : Bool :=
  (s.fetch name).isSome

def store (s : Scope) (name : String) (v : Value) : Scope :=
  { s with vars := s.vars.insert name v }

/-- All bindings that can be seen, by name. -/
def toList (s : Scope) : List (String × Value) :=
  (s.vars.foldl (fun t name v => t.insert name v) s.constants).toList

/-- The values of the variables. -/
def values (s : Scope) : List Value :=
  s.vars.toList.map (·.2)

/-- Replaces the value of every variable. -/
def mapVars (s : Scope) (f : Value → Value) : Scope :=
  { s with vars := s.vars.map fun _ v => f v }

/-- A scope whose variables hold copies of their containers; constants keep theirs. -/
def detached (s : Scope) (h : Heap) : Scope × Heap :=
  let (move, h) := h.copyFrom s.values
  (s.mapVars move, h)

end Scope

end LineBasic
