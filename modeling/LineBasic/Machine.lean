import LineBasic.BoundedStack
import LineBasic.Clock
import LineBasic.Listing
import LineBasic.Operation
import LineBasic.Program
import LineBasic.Random
import LineBasic.Scope

/-!
# The machine

The state of an interpreter and what it tells its host. A snapshot is the part of a machine that
comes back when it is restored; the heap, the tables of commands and functions, the random source
and the clock are not part of it.
-/

namespace LineBasic

set_option autoImplicit false

/-- Budgets for one call of the host. -/
structure Config where
  /-- Statements run before yielding. -/
  maxCycles : Nat := 10000
  /-- Output operations before yielding. -/
  maxOutputs : Nat := 10
  /-- Whether `next` with a negative step counts down to its limit. -/
  signedStep : Bool := false
deriving DecidableEq, Repr

/-- What the host should do next. -/
inductive Event where
  | stopped
  /-- The budget ran out; the program goes on with the next call. -/
  | running
  | print (text : String)
  | cls
  /-- A line of input is awaited. -/
  | input (prompt : String)
  /-- The program pauses for so many more nanoseconds. -/
  | sleep (nanos : Nat)
  | error (error : Error)
  | load (name : String)
  | save (name : String)
deriving DecidableEq, Repr

inductive Status where
  | stopped
  | running
  | input (prompt : String) (targets : List String)
  /-- Pausing until the clock shows `wake`. -/
  | asleep (wake : Nat)
deriving DecidableEq, Repr

/-- Bytes by address. -/
abbrev Memory := Std.TreeMap Nat UInt8

/-- The built-in functions. -/
inductive BuiltinFunction where
  | abs | rnd | sin | cos | tan | atn | atn2 | int | exp | log | sgn | sqr | asc | chr | len | left
  | mid | right | str | val | spc | tab | peek | time | timeOfDay | date
deriving DecidableEq, Repr

/-- What a function of the host can see of the machine. -/
structure View where
  heap : Heap
  memory : Memory
  clock : Clock

/-- What a function of the host does: it may fail, and it may draw from the random source. -/
abbrev Eval (α : Type) := ExceptT Error (StateM Random) α

inductive FunctionAction where
  | builtin (function : BuiltinFunction)
  | host (run : View → List Value → Eval Value)

/-- A built-in function or one that the host supplies. -/
structure Function where
  action : FunctionAction
  usage : String
  manual : String

/-- The built-in commands. -/
inductive Builtin where
  | print | input | cls | sleep | restore | help | env | list | listTo | new | clear | run | cont
  | poke | traceOn | traceOff | load | save
deriving DecidableEq, Repr

/-- What a command of the host can ask of the machine: it prints and stores, and does nothing else. -/
inductive HostRequest where
  | print (text : String)
  | store (name : String) (value : Value)
deriving Repr

inductive CommandAction where
  | builtin (command : Builtin)
  | host (run : Heap → List Value → Except Error (List HostRequest))

/-- A built-in command or one that the host supplies. -/
structure Command where
  action : CommandAction
  usage : String
  manual : String

/-- Everything needed to put a machine back where it was. -/
structure Snapshot where
  scope : Scope
  data : DataQueue
  memory : Memory
  /-- Where `return` goes, innermost last. -/
  returns : BoundedStack Frame
  code : Option Block
  /-- The statement to run next. -/
  pc : Address
  /-- What `cont` continues, and in which status. -/
  resume : Option (Frame × Status)
  status : Status
  program : Program
  listing : Listing
  tracing : Bool

structure Machine extends Snapshot where
  heap : Heap
  config : Config
  /-- Output operations since the host's last call. -/
  outputs : Nat
  /-- Events that the host has not seen, in order. -/
  pending : List Event
  commands : Std.TreeMap String Command
  functions : Std.TreeMap String Function
  random : Random
  /-- What the clock showed at the host's last call. -/
  clock : Clock
  /-- Whether plain names stand for themselves. -/
  literalNames : Bool

/-- Actions of expressions, statements and commands. What they changed before they fail stays changed. -/
abbrev Action (α : Type) := ExceptT Error (StateM Machine) α

/-- Fails if a plain result did. -/
def Action.ofExcept {α : Type} (x : Except Error α) : Action α :=
  ExceptT.mk (pure x)

namespace Event

/-- Adds text to the end of a list of events; it joins a text that is already there. -/
def appendText : List Event → String → List Event
  | [], s => [.print s]
  | [.print t], s => [.print (t ++ s)]
  | e :: es, s => e :: appendText es s

def isPrint : Event → Bool
  | print _ => true
  | _ => false

end Event

namespace Machine

/-- Queues text without counting it as output. -/
def emit (m : Machine) (s : String) : Machine :=
  { m with pending := Event.appendText m.pending s }

/-- Queues text for the host. -/
def print (m : Machine) (s : String) : Machine :=
  { m with outputs := m.outputs + 1, pending := Event.appendText m.pending s }

def pushEvent (m : Machine) (e : Event) : Machine :=
  { m with pending := m.pending ++ [e] }

/-- Names from the host are folded as whole texts. -/
def fetch (m : Machine) (name : String) : Option Value :=
  m.scope.fetch (Text.fold name)

def store (m : Machine) (name : String) (v : Value) : Machine :=
  { m with scope := m.scope.store (Text.fold name) v }

def defineConstant (m : Machine) (name : String) (v : Value) : Machine :=
  { m with scope := m.scope.define name v }

def defineFunction (m : Machine) (name : String) (f : Function) : Machine :=
  { m with functions := m.functions.insert (Text.fold name) f }

def defineCommand (m : Machine) (name : String) (c : Command) : Machine :=
  { m with commands := m.commands.insert (Text.fold name) c }

def view (m : Machine) : View :=
  ⟨m.heap, m.memory, m.clock⟩

/-- The limit on nested calls is that of any stack. -/
def noReturns : BoundedStack Frame :=
  { limit := BoundedStack.defaultLimit, overflow := "TOO MANY NESTED GOSUBS" }

/-- Starts a block at an address. -/
def run (m : Machine) (block : Block) (addr : Address) : Machine :=
  { m with code := some block, pc := addr, status := .running }

/-- Reads a source as a new block. -/
def compile (m : Machine) (source : String) (parent : Option Frame) :
    Except Error Block × Machine :=
  match m.program.compile m.data source parent with
  | .ok (block, program, data) => (.ok block, { m with program := program, data := data })
  | .error e => (.error e, m)

/-- Reads the listing as a new program, after everything that belongs to the old one is dropped. -/
def compileListing (m : Machine) : Except Error Block × Machine :=
  { m with
    scope := m.scope.clear
    memory := ∅
    data := {}
    program := m.program.clear
    returns := m.returns.clear
    resume := none }.compile m.listing.source none

end Machine

end LineBasic
