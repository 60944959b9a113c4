import LineBasic.Machine.Step

/-!
# Sessions

What a host does with a machine: make one, load and run programs, enter lines, interrupt, ask for
the next event, and take and restore snapshots. Nothing blocks: input and pauses are states that the
host resolves.
-/

namespace LineBasic

set_option autoImplicit false

namespace Machine

/-- A machine with the built-in commands, functions and constants. -/
def new (config : Config) (random : Random) : Machine :=
  let bare : Machine := {
    scope := .standard
    data := {}
    memory := ∅
    returns := noReturns
    code := none
    pc := 0
    resume := none
    status := .stopped
    program := {}
    listing := {}
    tracing := false
    heap := {}
    config := config
    outputs := 0
    pending := []
    commands := ∅
    functions := ∅
    random := random
    clock := {}
    literalNames := false }
  let withCommands := Command.builtins.foldl (fun m c => m.defineCommand c.1 c.2) bare
  Function.builtins.foldl (fun m f => m.defineFunction f.1 f.2) withCommands

/-- Replaces the listing. The variables go with the old one. -/
def setListing (m : Machine) (listing : Listing) : Machine :=
  { m with scope := m.scope.clear, listing := listing }

/-- Replaces the program by a source text and reads it. -/
def load (m : Machine) (source : String) : Except Error Block × Machine :=
  { m with listing := .ofSource source }.compileListing

/-- The value of an input field: a number if it reads as one and the variable may hold one. -/
def fieldValue (name : String) (field : List Char) : Value :=
  let entry := Text.trim field
  match Number.read? entry with
  | some x => if name.endsWith "$" then .text (String.ofList entry) else .number x
  | none => .text (String.ofList entry)

/-- Stores the fields of an input line in variables; missing fields are empty. -/
def assignFields (s : Scope) : List String → List (List Char) → Scope
  | [], _ => s
  | name :: names, fields =>
    assignFields (s.store name (fieldValue name (fields.headD []))) names fields.tail

/-- The fields of an input line. A single variable gets the whole line. -/
def inputFields (targets : List String) (line : List Char) : List (List Char) :=
  if 1 < targets.length then Text.fields ',' line else [line]

/-- Runs a line right away, on top of a suspended program if there is one. -/
def runLine (m : Machine) (line : String) : Machine :=
  match m.compile line (m.resume.map (·.1)) with
  | (.ok block, m) => m.run block 0
  | (.error e, m) => m.pushEvent (.error e)

/-- Takes a line from the host: input that is awaited, a line for the listing, or statements to run
right away. -/
def enter (m : Machine) (line : String) : Machine :=
  let line := (line.toList.reverse.dropWhile fun c => c == '\n' || c == '\r').reverse
  match m.status with
  | .input _ targets =>
    { m with scope := assignFields m.scope targets (inputFields targets line), status := .running }
  | _ =>
    let line := Text.trim line
    if line.isEmpty then m
    else match m.listing.placeNumbered? line with
      | some listing => { m with listing := listing }
      | none => m.runLine (String.ofList line)

/-- The report of an interrupt, at the statement that would have run next. -/
def breakError (block : Block) (pc : Address) : Error :=
  let e : Error := { code := .interrupted }
  match block.statements[pc]? with
  | some s => (e.locatedAt s.pos).withSource block.source
  | none => e

/-- Suspends whatever runs. `cont` goes on from there. -/
def interrupt (m : Machine) : Machine :=
  match m.status, m.code with
  | .stopped, _ => m
  | _, none => { m with status := .stopped }
  | prior, some block =>
    { m with status := .stopped, code := none, resume := some (⟨block, m.pc⟩, prior) }.pushEvent
      (.error (breakError block m.pc))

/-- The event for a machine with nothing to deliver. -/
def statusEvent (m : Machine) : Event :=
  match m.status with
  | .stopped => .stopped
  | .running => .running
  | .input prompt _ => .input prompt
  | .asleep wake => .sleep (wake - m.clock.nanos)

/-- Ends a pause when its time is up. -/
def wake (m : Machine) : Machine :=
  match m.status with
  | .asleep wake => if m.clock.nanos < wake then m else { m with status := .running }
  | _ => m

/-- Runs the program until a budget is spent, if it is running. -/
def quantum (m : Machine) : Machine :=
  if m.status = .running then { m with outputs := 0 }.runFor m.config.maxCycles else m

/-- The next event: one that waits, or else what comes of running on. -/
def execute (m : Machine) (clock : Clock) : Event × Machine :=
  let m := { m with clock := clock }
  match m.pending with
  | e :: rest => (e, { m with pending := rest })
  | [] =>
    let m := m.wake.quantum
    match m.pending with
    | e :: rest => (e, { m with pending := rest })
    | [] => (m.statusEvent, m)

/-- The machine's present state, with containers copied, so that later writes do not reach it. -/
def snapshot (m : Machine) : Snapshot × Machine :=
  let (move, heap) := m.heap.copyFrom (m.scope.values ++ m.data.values.toList)
  ({ m.toSnapshot with scope := m.scope.mapVars move, data := m.data.mapValues move },
    { m with heap := heap })

/-- Puts the machine back. Events that wait are dropped. -/
def restore (m : Machine) (s : Snapshot) : Machine :=
  { m with toSnapshot := s, pending := [] }

end Machine

end LineBasic
