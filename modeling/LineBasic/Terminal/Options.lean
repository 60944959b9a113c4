import LineBasic.Machine
import LineBasic.Number.Read

/-!
# Command line options

Options may stand anywhere among the scripts, each at most once; `--` ends them. An option's value
follows it, or is attached to it by `=`. What an option was given is judged when the next argument
that is known comes, or at the end; an argument that is not known is reported right away.
-/

namespace LineBasic.Terminal

set_option autoImplicit false

/-- Why a command line is not understood, or what it asks for instead of a run. -/
inductive OptionFault where
  | unknownArgument
  | badValue
  | missingValue
  | givenTwice
  | unexpectedValue
  | helpWanted
  | versionWanted
deriving DecidableEq, Repr

/-- The options that take a number. -/
inductive Setting where
  | cycles
  | outputs
deriving DecidableEq, Repr

structure Options where
  scripts : List String := []
  cycles : Option Nat := none
  outputs : Option Nat := none
  signedStep : Bool := false
deriving DecidableEq, Repr

namespace Options

/-- Budgets are at least one. -/
def config (o : Options) : Config where
  maxCycles := max 1 (o.cycles.getD 10000)
  maxOutputs := max 1 (o.outputs.getD 10)
  signedStep := o.signedStep

/-- The number that an option's value stands for. -/
def readNat? (s : String) : Option Nat :=
  let digits := match s.toList with
    | '+' :: cs => cs
    | cs => cs
  let n := Number.ofDigits digits
  if digits.isEmpty || !digits.all Char.isDigit || UInt64.size ≤ n then none else some n

def given (o : Options) : Setting → Option Nat
  | .cycles => o.cycles
  | .outputs => o.outputs

def set (o : Options) (s : Setting) (n : Nat) : Options :=
  match s with
  | .cycles => { o with cycles := some n }
  | .outputs => { o with outputs := some n }

/-- Gives an option its value. -/
def assign (o : Options) (s : Setting) (value : Option String) : Except OptionFault Options :=
  match value with
  | none => .error .missingValue
  | some value =>
    if (o.given s).isSome then .error .givenTwice
    else match readNat? value with
      | some n => .ok (o.set s n)
      | none => .error .badValue

def addScripts (o : Options) (names : List String) : Except OptionFault Options :=
  if names.any String.isEmpty then .error .missingValue
  else .ok { o with scripts := o.scripts ++ names }

/-- What was read and not yet judged. -/
inductive Pending where
  | none
  | setting (setting : Setting) (value : Option String)
  | scripts (names : List String)

/-- Judges what is pending. -/
def settle (o : Options) : Pending → Except OptionFault Options
  | .none => .ok o
  | .setting s value => o.assign s value
  | .scripts names => o.addScripts names

/-- One more script. -/
def addScript (o : Options) (pending : Pending) (name : String) :
    Except OptionFault (Options × Pending) :=
  match pending with
  | .scripts names => .ok (o, .scripts (names ++ [name]))
  | pending => do pure (← o.settle pending, .scripts [name])

/-- Name and attached value of a long option. -/
def splitLong (cs : List Char) : String × Option String :=
  let name := cs.takeWhile (· != '=')
  match cs.drop name.length with
  | _ :: value => (String.ofList name, some (String.ofList value))
  | [] => (String.ofList name, none)

/-- A setting, with its value attached or yet to come. -/
def longSetting (o : Options) (pending : Pending) (s : Setting) (value : Option String) :
    Except OptionFault (Options × Pending) := do
  let o ← o.settle pending
  match value with
  | some value => pure (← o.assign s (some value), .none)
  | none => pure (o, .setting s none)

/-- An option that takes no value. -/
def longFlag (o : Options) (pending : Pending) (value : Option String)
    (act : Options → Except OptionFault Options) : Except OptionFault (Options × Pending) := do
  if value.isSome then throw .unexpectedValue
  pure (← act (← o.settle pending), .none)

/-- A long option. -/
def long (o : Options) (pending : Pending) (cs : List Char) :
    Except OptionFault (Options × Pending) :=
  match splitLong cs with
  | ("cycles", value) => o.longSetting pending .cycles value
  | ("outputs", value) => o.longSetting pending .outputs value
  | ("signed-step", value) =>
    o.longFlag pending value fun o =>
      if o.signedStep then .error .givenTwice else .ok { o with signedStep := true }
  | ("help", value) => o.longFlag pending value fun _ => .error .helpWanted
  | ("version", value) => o.longFlag pending value fun _ => .error .versionWanted
  | _ => .error .unknownArgument

/-- A short option, by its letter. -/
def short (o : Options) (pending : Pending) (letter : Char) :
    Except OptionFault (Options × Pending) :=
  match letter with
  | 'h' => o.longFlag pending none fun _ => .error .helpWanted
  | 'V' => o.longFlag pending none fun _ => .error .versionWanted
  | _ => .error .unknownArgument

/-- An argument that is no option: the value that is awaited, or a script. -/
def plain (o : Options) (pending : Pending) (arg : String) :
    Except OptionFault (Options × Pending) :=
  match pending with
  | .setting s none => .ok (o, .setting s (some arg))
  | pending => o.addScript pending arg

/-- One argument before `--`. -/
def argument (o : Options) (pending : Pending) (arg : String) :
    Except OptionFault (Options × Pending) :=
  match arg.toList with
  | '-' :: '-' :: cs => o.long pending cs
  | '-' :: letter :: _ => o.short pending letter
  | _ => o.plain pending arg

/-- The arguments after `--`. -/
def readScripts (o : Options) (pending : Pending) : List String → Except OptionFault Options
  | [] => o.settle pending
  | arg :: args => do
    let (o, pending) ← o.addScript pending arg
    o.readScripts pending args

def readFrom (o : Options) (pending : Pending) : List String → Except OptionFault Options
  | [] => o.settle pending
  | arg :: args =>
    if arg = "--" then o.readScripts pending args
    else do
      let (o, pending) ← o.argument pending arg
      o.readFrom pending args

/-- Reads a command line. -/
def read (args : List String) : Except OptionFault Options :=
  ({} : Options).readFrom .none args

end Options

end LineBasic.Terminal
