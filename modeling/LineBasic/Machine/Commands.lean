import LineBasic.Machine

/-!
# Built-in commands

What each command does with the values of its arguments.
-/

namespace LineBasic

set_option autoImplicit false

namespace Command

/-- The text of a print list before its ending. Values are separated by a space unless `;` came
before them. -/
def printedValues (h : Heap) : (first joined : Bool) → List Value → String
  | _, _, [] => ""
  | first, _, .mark c :: vs => printedValues h first (c == ';') vs
  | first, joined, v :: vs =>
    (if first || joined then "" else " ") ++ h.display v ++ printedValues h false false vs

/-- The ending of a print list: a space after a last `,`, nothing after another mark, and else a
line break. -/
def printedEnding (args : List Value) : String :=
  match args.getLast? with
  | some (.mark ',') => " "
  | some (.mark _) => ""
  | _ => "\n"

def printed (h : Heap) (args : List Value) : String :=
  printedValues h true false args ++ printedEnding args

/-- The prompt of an `input`: its values, each followed by a space. -/
def promptOf (h : Heap) : List Value → String
  | [] => ""
  | .name _ :: vs => promptOf h vs
  | .mark _ :: vs => promptOf h vs
  | v :: vs => h.display v ++ " " ++ promptOf h vs

/-- The variables that an `input` asks for. -/
def targetsOf (args : List Value) : List String :=
  args.filterMap fun
    | .name s => some s
    | _ => none

/-- Usage and manual of a command or else of a function. -/
def entry? (m : Machine) (name : String) : Option (String × String) :=
  match m.commands[name]? with
  | some c => some (c.usage, c.manual)
  | none => m.functions[name]?.map fun f => (f.usage, f.manual)

/-- What `help` says about a name. -/
def helpOn (m : Machine) (name : String) : String :=
  match entry? m name with
  | some (usage, manual) =>
    name ++ (if usage.isEmpty then "" else " " ++ usage) ++ " - " ++ manual ++ "\n"
  | none => name ++ " - unknown command\n"

/-- The names of all commands and of all functions, the latter with parentheses. -/
def helpOverview (m : Machine) : String :=
  let functions := (m.functions.keys.map (· ++ "()")).mergeSort fun a b => a ≤ b
  " ".intercalate m.commands.keys ++ "\n" ++ " ".intercalate functions ++ "\n"

/-- One line of `env`. -/
def binding (h : Heap) (name : String) : Value → String
  | .text s => "* " ++ name ++ "=\"" ++ s ++ "\"\n"
  | v => "* " ++ name ++ "=" ++ h.display v ++ "\n"

/-- The bindings whose names contain `filter`. -/
def bindings (m : Machine) (filter : String) : String :=
  let shown := m.scope.toList.filter fun e => Text.occursIn filter.toList e.1.toList
  String.join (shown.map fun e => binding m.heap e.1 e.2)

/-- The text of listed lines, with a line break behind if there are any. -/
def listed (m : Machine) (first : Nat) (last : Option Nat) : String :=
  let lines := m.listing.range first last
  if lines.isEmpty then lines else lines ++ "\n"

def fileName (h : Heap) : List Value → Except Error String
  | [.text s] =>
    if s.isEmpty then .error (.typeMismatch (s ++ " is not a file name")) else .ok s
  | [v] => .error (.typeMismatch (h.display v ++ " is not a file name"))
  | _ => .error (.illegalCall "file name expected")

/-- The label that `run` starts at. -/
def startLabel (h : Heap) : List Value → Except Error (Option String)
  | [] => .ok none
  | .number x :: _ => .ok (some (Number.text x))
  | .text s :: _ => .ok (some (Text.fold s))
  | v :: _ => .error (.typeMismatch (h.display v ++ " is not a label"))

/-- Seconds as nanoseconds, if a pause can be that long. -/
def pauseNanos (seconds : Float) : Except Error Nat :=
  if !seconds.isFinite || seconds < 0 || seconds > Float.ofNat Heap.maxIndex then
    .error (.illegalCall ("can't sleep " ++ Number.text seconds))
  else .ok (Number.scaledNat 9 seconds)

/-- The byte nearest to a whole number. -/
def byteOf (x : Float) : Except Error UInt8 :=
  match Number.whole? x with
  | some n => .ok (UInt8.ofNat (min 255 n.toNat))
  | none => .error (.illegalCall (Number.text x ++ " is not a byte"))

end Command

namespace Action

/-- Recompiles the listing and starts it, at a label if there is one of that name. -/
def restart (label : Option String) : Action Unit := do
  let block ← ExceptT.mk Machine.compileListing
  modify fun m =>
    match label.bind m.program.label? with
    | some frame => m.run frame.block frame.addr
    | none => m.run block 0

/-- Goes on where an interrupt left off. -/
def resume : Action Unit := do
  match (← get).resume with
  | some (frame, status) =>
    modify fun m =>
      { m with code := some frame.block, pc := frame.addr, status := status, resume := none }
  | none => throw { code := .cantContinue }

/-- The place of a line in the listing, from a value. -/
def lineNumber (v : Value) : Action Nat := do
  ofExcept ((← get).heap.toIndex v)

def listLines (first : Nat) (last : Option Nat) : Action Unit :=
  modify fun m => m.print (Command.listed m first last)

def help (args : List Value) : Action Unit := do
  match args with
  | [] => modify fun m => m.print (Command.helpOverview m)
  | .name s :: _ => modify fun m => m.print (Command.helpOn m (Text.fold s))
  | .text s :: _ => modify fun m => m.print (Command.helpOn m (Text.fold s))
  | v :: _ => throw (.typeMismatch ((← get).heap.display v ++ " is not a name"))

def sleep (args : List Value) : Action Unit := do
  match args with
  | [v] => do
    let seconds ← ofExcept ((← get).heap.toNumber v)
    let nanos ← ofExcept (Command.pauseNanos seconds)
    modify fun m => { m with status := .asleep (m.clock.nanos + nanos) }
  | _ => throw (.illegalCall "seconds expected")

def poke (args : List Value) : Action Unit := do
  match args with
  | [address, value] => do
    let address ← ofExcept ((← get).heap.toIndex address)
    let value ← ofExcept ((← get).heap.toNumber value)
    let byte ← ofExcept (Command.byteOf value)
    modify fun m => { m with memory := m.memory.insert address byte }
  | _ => throw (.illegalCall "address and value expected")

def list (args : List Value) : Action Unit := do
  match args with
  | [] => listLines 0 none
  | [first] => do listLines (← lineNumber first) none
  | [first, last] => do
    let first ← lineNumber first
    listLines first (some (← lineNumber last))
  | _ => throw (.illegalCall "from and to expected")

def listTo (args : List Value) : Action Unit := do
  match args with
  | [] => listLines 0 none
  | [last] => do listLines 0 (some (← lineNumber last))
  | _ => throw (.illegalCall "to expected")

/-- What a built-in command does. -/
def builtin (args : List Value) : Builtin → Action Unit
  | .print => modify fun m => m.print (Command.printed m.heap args)
  | .input => modify fun m =>
    { m with status := .input (Command.promptOf m.heap args) (Command.targetsOf args) }
  | .cls => modify fun m => { m.pushEvent .cls with outputs := m.outputs + 1 }
  | .sleep => sleep args
  | .restore => modify fun m => { m with data := m.data.rewind }
  | .help => help args
  | .env => modify fun m =>
    m.print (Command.bindings m (args.head?.elim "" fun v => Text.fold (m.heap.display v)))
  | .list => list args
  | .listTo => listTo args
  | .new => modify fun m =>
    { m with
      scope := m.scope.clear, memory := ∅, data := {}, listing := {}, program := m.program.clear,
      resume := none }
  | .clear => modify fun m => { m with scope := m.scope.clear, memory := ∅ }
  | .run => do restart (← ofExcept (Command.startLabel (← get).heap args))
  | .cont => resume
  | .poke => poke args
  | .traceOn => modify fun m => { m with tracing := true }
  | .traceOff => modify fun m => { m with tracing := false }
  | .load => do
    let name ← ofExcept (Command.fileName (← get).heap args)
    modify (·.pushEvent (.load name))
  | .save => do
    let name ← ofExcept (Command.fileName (← get).heap args)
    modify (·.pushEvent (.save name))

/-- Grants what a command of the host asks for. -/
def grant : HostRequest → Machine → Machine
  | .print s, m => m.print s
  | .store name v, m => m.store name v

/-- Runs a command on the values of its arguments. -/
def perform (c : CommandAction) (args : List Value) : Action Unit :=
  match c with
  | .builtin command => builtin args command
  | .host handler => do
    let requests ← ofExcept (handler (← get).heap args)
    modify fun m => requests.foldl (fun m r => grant r m) m

end Action

/-- The built-in commands by name. -/
def Command.builtins : List (String × Command) :=
  [("print", ⟨.builtin .print, "(value)[;|,]...", "print values"⟩),
   ("input", ⟨.builtin .input, "(prompt), name...", "read a line into [name]"⟩),
   ("cls", ⟨.builtin .cls, "", "clear the screen"⟩),
   ("sleep", ⟨.builtin .sleep, "seconds", "pause for [seconds]"⟩),
   ("restore", ⟨.builtin .restore, "", "read data from the start again"⟩),
   ("help", ⟨.builtin .help, "(name)", "list commands and functions or describe [name]"⟩),
   ("env", ⟨.builtin .env, "(filter)", "list defined variables with their values"⟩),
   ("list", ⟨.builtin .list, "(from), (to)", "list the source"⟩),
   ("listo", ⟨.builtin .listTo, "(to)", "list the source up to line [to]"⟩),
   ("new", ⟨.builtin .new, "", "erase the current program"⟩),
   ("clr", ⟨.builtin .clear, "", "erase all variables"⟩),
   ("clear", ⟨.builtin .clear, "", "erase all variables"⟩),
   ("run", ⟨.builtin .run, "(line/label)", "run the program, from [line/label] when given"⟩),
   ("cont", ⟨.builtin .cont, "", "continue after a break"⟩),
   ("poke", ⟨.builtin .poke, "address, value", "store a byte in memory"⟩),
   ("tron", ⟨.builtin .traceOn, "", "trace executed lines"⟩),
   ("troff", ⟨.builtin .traceOff, "", "stop tracing"⟩),
   ("load", ⟨.builtin .load, "name", "load a program"⟩),
   ("save", ⟨.builtin .save, "name", "save the program"⟩)]

end LineBasic
