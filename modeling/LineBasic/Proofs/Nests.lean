import LineBasic.Proofs.Effects

/-!
# Programs with nested loops

Programs in which loops have bodies instead of addresses. `layout` lays such a program out flat, with
the address of every place that a loop's statements go to, and `run` says what it does: a counting
loop makes its first pass without a test and then asks after each pass, a guarded loop asks before
and after each pass, and a `break` leaves the loop around it.
-/

namespace LineBasic

set_option autoImplicit false

namespace Stmt

variable {χ : Type}

/-- Whether no part of a statement opens or closes a loop. -/
def loopless : Stmt χ → Bool
  | .for .. | next .. | .do .. | loop .. => false
  | when _ _ taken => taken.loopless
  | choose _ _ taken otherwise => taken.loopless && otherwise.loopless
  | _ => true

/-- Whether a statement opens or closes a loop only as a whole, not in a branch. -/
def standsAlone : Stmt χ → Bool
  | .for .. | next .. | .do .. | loop .. => true
  | s => s.loopless

/-- The commands that suspend a program or go on with another one. -/
def suspending : List String :=
  ["run", "cont", "input", "sleep"]

/-- Whether no part of a statement jumps, other than by loops and their ends, or suspends the
program. -/
def direct : Stmt χ → Bool
  | goto .. | gosub .. | onGoto .. | onGosub .. | .return _ => false
  | command _ name _ _ => !suspending.contains name
  | when _ _ taken => taken.direct
  | choose _ _ taken otherwise => taken.direct && otherwise.direct
  | _ => true

/-- Whether a part of a statement leaves the loop around it. -/
def breaks : Stmt χ → Bool
  | leave .. => true
  | when _ _ taken => taken.breaks
  | choose _ _ taken otherwise => taken.breaks || otherwise.breaks
  | _ => false

end Stmt

/-- A sequence of statements and of loops with their bodies. -/
inductive Nest where
  | done
  | plain (s : Stmt Unit) (rest : Nest)
  | for (pos : Pos) (var : String) (start limit : Expr) (step : Option Expr) (body : Nest)
    (closing : Pos) (rest : Nest)
  | do (pos : Pos) (top : Option Guard) (body : Nest) (closing : Pos) (bottom : Option Guard)
    (rest : Nest)

namespace Nest

/-- Whether loops are opened and closed by loops only and left only from inside. -/
def proper (inLoop : Bool) : Nest → Bool
  | done => true
  | plain s rest => s.loopless && (inLoop || !s.breaks) && rest.proper inLoop
  | .for _ _ _ _ _ body _ rest => body.proper true && rest.proper inLoop
  | .do _ _ body _ _ rest => body.proper true && rest.proper inLoop

/-- The number of statements. -/
def size : Nest → Nat
  | done => 0
  | plain _ rest => rest.size + 1
  | .for _ _ _ _ _ body _ rest => body.size + rest.size + 2
  | .do _ _ body _ _ rest => body.size + rest.size + 2

/-- The statements from an address on, when `exit` is the place after the loop around them. -/
def layout : Nest → (start exit : Address) → List (Stmt Address)
  | done, _, _ => []
  | plain s rest, a, exit => s.mapExit (fun _ => exit) :: rest.layout (a + 1) exit
  | .for pos var start limit step body closing rest, a, exit =>
    let header : ForHeader Address := ⟨var, start, limit, step, a + 1, a + body.size + 2⟩
    .for pos header :: (body.layout (a + 1) (a + body.size + 2) ++
      .next closing header :: rest.layout (a + body.size + 2) exit)
  | .do pos top body closing bottom rest, a, exit =>
    let header : DoHeader Address := ⟨a, a + body.size + 2⟩
    .do pos top header :: (body.layout (a + 1) (a + body.size + 2) ++
      .loop closing bottom header :: rest.layout (a + body.size + 2) exit)

/-- One program after another. -/
def append : Nest → Nest → Nest
  | done, t => t
  | plain s rest, t => plain s (rest.append t)
  | .for pos var start limit step body closing rest, t =>
    .for pos var start limit step body closing (rest.append t)
  | .do pos top body closing bottom rest, t => .do pos top body closing bottom (rest.append t)

theorem length_layout (t : Nest) (a exit : Address) : (t.layout a exit).length = t.size := by
  induction t generalizing a exit with
  | done => rfl
  | plain s rest ih => simp [layout, size, ih]
  | «for» pos var start limit step body closing rest ihb ihr =>
    simp [layout, size, ihb, ihr, Nat.add_assoc]
  | «do» pos top body closing bottom rest ihb ihr =>
    simp [layout, size, ihb, ihr, Nat.add_assoc]

theorem layout_append (t u : Nest) (a exit : Address) :
    (t.append u).layout a exit = t.layout a exit ++ u.layout (a + t.size) exit := by
  induction t generalizing a with
  | done => rfl
  | plain s rest ih => simp [append, layout, size, ih, Nat.add_assoc, Nat.add_comm 1]
  | «for» pos var start limit step body closing rest ihb ihr =>
    simp [append, layout, size, ihr, Nat.add_assoc, Nat.add_comm 2]
  | «do» pos top body closing bottom rest ihb ihr =>
    simp [append, layout, size, ihr, Nat.add_assoc, Nat.add_comm 2]

theorem proper_append (t u : Nest) (inLoop : Bool) :
    (t.append u).proper inLoop = (t.proper inLoop && u.proper inLoop) := by
  induction t with
  | done => rfl
  | plain s rest ih => simp [append, proper, ih, Bool.and_assoc]
  | «for» pos var start limit step body closing rest ihb ihr =>
    simp [append, proper, ihr, Bool.and_assoc]
  | «do» pos top body closing bottom rest ihb ihr =>
    simp [append, proper, ihr, Bool.and_assoc]

end Nest

/-! ### What a nest does -/

/-- What follows a statement: the next one, the place after the loop around it, or nothing. -/
inductive Flow where
  | on | left | ended
deriving DecidableEq

/-- What a statement does that neither opens nor closes a loop, and what follows it. -/
def Stmt.act : Stmt Unit → Action Flow
  | .when _ condition taken => do
    if (← Action.eval condition).isTruthy then taken.act else pure .on
  | .choose _ condition taken otherwise => do
    if (← Action.eval condition).isTruthy then taken.act else otherwise.act
  | .leave _ _ => pure .left
  | .finish _ => do
    Action.terminate
    pure .ended
  | s => do
    Action.exec (s.mapExit fun _ => 0)
    pure .on

/-- How a run of some statements comes to an end. -/
inductive Ending where
  /-- All of them are done. -/
  | through
  /-- The loop around them is left. -/
  | left
  /-- The program has ended. -/
  | ended
  | failed (e : Error) (pos : Pos)

/-- A run of some statements; it gives nothing if it takes too long. -/
abbrev Run := Machine → Option (Ending × Machine)

namespace Run

def finished : Run :=
  fun m => some (.through, m)

def tooLong : Run :=
  fun _ => none

/-- What a statement at a position does, and what comes of it. -/
def attempt {α : Type} (pos : Pos) (x : Action α) (k : α → Run) : Run := fun m =>
  match x.run (m.trace pos) with
  | (.ok a, m) => k a m
  | (.error e, m) => some (.failed e pos, m)

def andThen (first second : Run) : Run := fun m =>
  match first m with
  | some (.through, m) => second m
  | r => r

/-- One pass of a loop: `again` follows unless the loop is left. -/
def pass (body again : Run) : Run := fun m =>
  match body m with
  | some (.through, m) => again m
  | some (.left, m) => some (.through, m)
  | r => r

/-- Passes of a counting loop, at most so many. After each one it is asked for another. -/
def forPasses (body : Run) (closing : Pos) (another : Action Bool) : Nat → Run
  | 0 => tooLong
  | n + 1 => body.pass (attempt closing another fun again =>
      if again then forPasses body closing another n else finished)

/-- Passes of a guarded loop, at most so many. It is asked before and after each one. -/
def doPasses (body : Run) (pos : Pos) (top : Action Bool) (closing : Pos) (bottom : Action Bool) :
    Nat → Run
  | 0 => tooLong
  | n + 1 => attempt pos top fun enters =>
      if enters then body.pass (attempt closing bottom fun again =>
        if again then doPasses body pos top closing bottom n else finished)
      else finished

end Run

open Run in
/-- Runs a nest in which no loop makes more than `n` passes at a time. -/
def Nest.run (n : Nat) : Nest → Run
  | done => finished
  | plain s rest => attempt s.pos s.act fun
    | .on => rest.run n
    | .left => fun m => some (.left, m)
    | .ended => fun m => some (.ended, m)
  | .for pos var start limit step body closing rest =>
    andThen
      (attempt pos (do Action.store var (← Action.eval start)) fun _ =>
        forPasses (body.run n) closing (Action.anotherPass closing var limit step) n)
      (rest.run n)
  | .do pos top body closing bottom rest =>
    andThen
      (doPasses (body.run n) pos (Action.guard top) closing (Action.guard bottom) n)
      (rest.run n)

/-- What becomes of the machine when a program has come to an end. -/
def Ending.conclude (block : Block) (m : Machine) : Ending → Machine
  | through => m.fallOff block
  | failed e pos => m.abort e block pos
  | _ => m

/-- The program `t` comes to an end and leaves the machine in the state `m'`. -/
def Nest.Completes (t : Nest) (block : Block) (m m' : Machine) : Prop :=
  ∃ n ending last, t.run n m = some (ending, last) ∧ m' = ending.conclude block last

end LineBasic
