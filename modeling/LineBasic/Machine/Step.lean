import LineBasic.Machine.Commands
import LineBasic.Machine.Eval

/-!
# Running statements

What one statement does to the machine, and how a machine runs statements until a budget is spent or
something else is up. The machine has already moved to the next statement when one runs, so only
jumps set the place again.
-/

namespace LineBasic

set_option autoImplicit false

namespace Action

/-- Evaluates to a number. -/
def evalNumber (e : Expr) : Action Float := do
  let v ← eval e
  ofExcept ((← get).heap.toNumber v)

def store (name : String) (v : Value) : Action Unit :=
  modify fun m => { m with scope := m.scope.store name v }

/-- Writes an element of the container that a name holds. -/
def storeElement (name : String) (selector : Selector) (v : Value) : Action Unit := do
  let place ← slot name selector
  modify fun m => { m with heap := m.heap.write place v }

def jump (frame : Frame) : Action Unit :=
  modify fun m => { m with code := some frame.block, pc := frame.addr }

/-- Jumps and remembers where to return. -/
def call (frame : Frame) : Action Unit := do
  let m ← get
  match m.code with
  | none => throw { code := .internal, detail := "NO CODE TO RETURN TO" }
  | some block =>
    let here : Frame := ⟨block, m.pc⟩
    match m.returns.overflow? with
    | some e => throw e
    | none => do
      modify fun m => { m with returns := m.returns.add here }
      jump frame

/-- Ends the program and every program that it was entered from. -/
def terminate : Action Unit :=
  modify fun m =>
    { m with code := none, resume := none, returns := m.returns.clear, status := .stopped }

/-- Goes back to where the last call came from; without a call, ends the program. -/
def goBack : Action Unit := do
  match (← get).returns.top? with
  | some frame => do
    modify fun m => { m with returns := m.returns.pop }
    jump frame
  | none => terminate

/-- The place of a label. -/
def labelFrame (name : String) : Action Frame := do
  match (← get).program.label? name with
  | some frame => pure frame
  | none => throw { code := .undefinedLabel, detail := "unknown label [" ++ name ++ "]" }

/-- The label that the target of a jump names: a name that is no variable names itself. -/
def labelOf (target : Expr) : Action String := do
  let named := match target with
    | .var _ name => some name
    | _ => none
  let m ← get
  match named.filter (!m.scope.contains ·) with
  | some name => pure name
  | none => do
    match ← eval target with
    | .number x => pure (Number.text x)
    | .text s => pure (Text.fold s)
    | .name s => pure s
    | v => throw ((Error.typeMismatch (v.typeName ++ " is not a label")).locatedAt target.pos)

/-- The place that a jump goes to. -/
def target (e : Expr) : Action Frame := do
  let name ← labelOf e
  located e.pos (labelFrame name)

/-- The place of the label that an index selects, counting from one. -/
def choose (index : Expr) (labels : List String) : Action Frame := do
  let x ← evalNumber index
  let chosen := match Number.nat? x with
    | some (n + 1) => labels[n]?
    | _ => none
  match chosen with
  | some name => labelFrame name
  | none =>
    throw ((Error.illegalCall ("no label for index " ++ Number.text x)).locatedAt index.pos)

/-- Whether a guard lets a loop go on. -/
def guard : Option Guard → Action Bool
  | none => pure true
  | some (.while e) => do pure (← eval e).isTruthy
  | some (.until e) => do pure !(← eval e).isTruthy

/-- Takes a counting loop's variable one step further and decides on another pass. -/
def advanceLoop (pos : Pos) (header : ForHeader Address) : Action Unit := do
  let current ← match (← get).scope.fetch header.var with
    | some (.number x) => pure x
    | some v => throw ((Error.typeMismatch (header.var ++ " is " ++ v.typeName)).locatedAt pos)
    | none => throw ((Error.unknownIdentifier header.var).locatedAt pos)
  let step ← match header.step with
    | some e => evalNumber e
    | none => pure 1
  let value := current + step
  store header.var (.number value)
  let limit ← evalNumber header.limit
  let again := if (← get).config.signedStep && step < 0 then value ≥ limit else value ≤ limit
  if again then modify fun m => { m with pc := header.body }

/-- Reads the next data value into each target. -/
def readAll : List Target → Action Unit
  | [] => pure ()
  | target :: targets => do
    let (v, data) ← ofExcept (← get).data.read
    modify fun m => { m with data := data }
    match target with
    | .var _ name => store name v
    | .element pos name selector =>
      located pos (storeElement name selector v)
    readAll targets

/-- Looks a command up and runs it. -/
def command (pos : Pos) (name : String) (args : Option Expr) (literalNames : Bool) :
    Action Unit := do
  match (← get).commands[name]? with
  | none =>
    throw { code := .unknownCommand, detail := "unknown command [" ++ name ++ "]", pos := some pos }
  | some c => do
    let args ← naming literalNames (evalArgs args)
    located pos (perform c.action args)

/-- What a statement does. -/
def exec : Stmt Address → Action Unit
  | .command pos name args literal => command pos name args literal
  | .assign _ name e => do store name (← eval e)
  | .assignElement _ name selector e => do
    let v ← eval e
    storeElement name selector v
  | .dim _ name sizes => do
    let sizes ← evalAll sizes
    let (array, heap) ← ofExcept ((← get).heap.dim sizes)
    modify fun m => { m with heap := heap, scope := m.scope.store name array }
  | .map _ name => modify fun m =>
    let (created, heap) := m.heap.newMap
    { m with heap := heap, scope := m.scope.store name created }
  | .when _ condition taken => do
    if (← eval condition).isTruthy then exec taken
  | .choose _ condition taken otherwise => do
    if (← eval condition).isTruthy then exec taken else exec otherwise
  | .goto _ e => do jump (← target e)
  | .gosub _ e => do call (← target e)
  | .onGoto _ index labels => do jump (← choose index labels)
  | .onGosub _ index labels => do call (← choose index labels)
  | .for _ header => do store header.var (← eval header.start)
  | .next pos header => advanceLoop pos header
  | .do _ g header => do
    if !(← guard g) then modify fun m => { m with pc := header.exit }
  | .loop _ g header => do
    if ← guard g then modify fun m => { m with pc := header.top }
  | .leave _ exit => modify fun m => { m with pc := exit }
  | .read _ targets => readAll targets
  | .return _ => goBack
  | .finish _ => terminate

end Action

namespace Machine

/-- Stops the program with an error, which gets a position and an excerpt if it has none. Calls are
forgotten unless they belong to a suspended program. -/
def abort (m : Machine) (e : Error) (block : Block) (pos : Pos) : Machine :=
  let stopped := { m with code := none, status := .stopped }
  let cleared :=
    if m.resume.isNone then { stopped with returns := stopped.returns.clear } else stopped
  cleared.pushEvent (.error ((e.locatedAt pos).withSource block.source))

/-- Ends a block after its last statement. What it was entered from can be continued. -/
def fallOff (m : Machine) (block : Block) : Machine :=
  let resume := match m.resume, block.parent with
    | none, some parent => some (parent, .running)
    | resume, _ => resume
  { m with resume := resume, code := none, status := .stopped }

/-- Shows the line of a statement if tracing is on. -/
def trace (m : Machine) (pos : Pos) : Machine :=
  if m.tracing then m.emit ("[" ++ toString pos.line ++ "]") else m

/-- Runs one statement of a block. -/
def step (m : Machine) (block : Block) (s : Stmt Address) : Machine :=
  match (Action.exec s).run (({ m with pc := m.pc + 1 } : Machine).trace s.pos) with
  | (.ok _, m) => m
  | (.error e, m) => m.abort e block s.pos

/-- Whether another statement may run: the program is running, outputs are left, and nothing but
text waits for the host. -/
def mayStep (m : Machine) : Bool :=
  m.status == .running && m.outputs < m.config.maxOutputs && m.pending.getLast?.all Event.isPrint

/-- Runs statements, at most `cycles` of them. -/
def runFor : Nat → Machine → Machine
  | 0, m => m
  | cycles + 1, m =>
    if m.mayStep then
      match m.code with
      | none => { m with status := .stopped }
      | some block =>
        match block.statements[m.pc]? with
        | none => m.fallOff block
        | some s => runFor cycles (m.step block s)
    else m

end Machine

end LineBasic
