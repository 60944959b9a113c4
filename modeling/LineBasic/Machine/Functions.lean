import LineBasic.Machine

/-!
# Built-in functions

Every function checks the number of its arguments first and then looks at them from left to right.
-/

namespace LineBasic

set_option autoImplicit false

namespace Function

/-- The complaint about a wrong number of arguments. -/
def wrongCount (least most given : Nat) : Error :=
  let expected :=
    if least = most then toString least else toString least ++ " to " ++ toString most
  .illegalCall ("expected " ++ expected ++ " arguments, got " ++ toString given)

/-- A function of the host that draws no random numbers. -/
def ofPure (f : View → List Value → Except Error Value) (usage manual : String) : Function where
  action := .host fun view args => ExceptT.mk (pure (f view args))
  usage := usage
  manual := manual

/-- Computes from what can be seen of the machine. -/
def computed (f : View → List Value → Except Error Value) (args : List Value) : Action Value := do
  Action.ofExcept (f (← get).view args)

/-- A function of one number. -/
def math (f : Float → Float) (view : View) (args : List Value) : Except Error Value :=
  match args with
  | [v] => do pure (.number (f (← view.heap.toNumber v)))
  | _ => .error (wrongCount 1 1 args.length)

def text (v : Value) : Except Error String :=
  match v with
  | .text s => .ok s
  | v => .error (.typeMismatch (v.typeName ++ " is not a string"))

/-- A number of characters: undefined and negative numbers count as zero, fractions are dropped. -/
def count (h : Heap) (v : Value) : Except Error Nat := do
  pure (Number.floorNat Heap.maxIndex (← h.toNumber v))

def sign (x : Float) : Float :=
  if x > 0 then 1 else if x < 0 then -1 else x

/-- The first `n` characters. -/
def leftPart (s : String) (n : Nat) : String :=
  (s.take n).copy

/-- The characters between two places, in whichever order they are given. -/
def midPart (s : String) (i j : Nat) : String :=
  let i := min i s.length
  let j := min j s.length
  let (first, last) := if j < i then (j, i) else (i, j)
  ((s.dropEnd (s.length - last)).takeEnd (last - first)).copy

/-- The last `n` characters. -/
def rightPart (s : String) (n : Nat) : String :=
  (s.takeEnd n).copy

/-- The whole number in front of a text; zero when there is none. -/
def leadingInteger (s : List Char) : Float :=
  let (negative, rest) := Number.splitSign (Text.trimStart s)
  let digits := rest.takeWhile Char.isDigit
  if digits.isEmpty then 0
  else if negative then -Number.ofDecimal digits [] 0
  else Number.ofDecimal digits [] 0

def atn2 (view : View) (args : List Value) : Except Error Value :=
  match args with
  | [y, x] => do
    let y ← view.heap.toNumber y
    let x ← view.heap.toNumber x
    pure (.number (Float.atan2 y x))
  | _ => .error (wrongCount 2 2 args.length)

def asc (_ : View) (args : List Value) : Except Error Value :=
  match args with
  | [v] => do
    match (← text v).toList with
    | [] => pure (.number 0)
    | c :: _ => pure (.number (Float.ofNat c.toNat))
  | _ => .error (wrongCount 1 1 args.length)

/-- The character of a code point, if the number is one. -/
def char? (x : Float) : Option Char :=
  match Number.nat? x with
  | some n => if n.isValidChar then some (Char.ofNat n) else none
  | none => none

def chr (view : View) (args : List Value) : Except Error Value :=
  match args with
  | [v] => do
    match char? (← view.heap.toNumber v) with
    | some c => pure (.text c.toString)
    | none => throw (.illegalCall (view.heap.display v ++ " is not a character code"))
  | _ => .error (wrongCount 1 1 args.length)

def len (view : View) (args : List Value) : Except Error Value :=
  match args with
  | [.text s] => .ok (.number (Float.ofNat s.length))
  | [.array r] => .ok (.number (Float.ofNat (view.heap.grid r).size))
  | [.map r] => .ok (.number (Float.ofNat (view.heap.dict r).size))
  | [v] => .error (.typeMismatch (v.typeName ++ " has no length"))
  | _ => .error (wrongCount 1 1 args.length)

def left (view : View) (args : List Value) : Except Error Value :=
  match args with
  | [s, n] => do
    let s ← text s
    let n ← count view.heap n
    pure (.text (leftPart s n))
  | _ => .error (wrongCount 2 2 args.length)

def mid (view : View) (args : List Value) : Except Error Value :=
  match args with
  | [s, i] => do
    let s ← text s
    let i ← count view.heap i
    pure (.text (midPart s i s.length))
  | [s, i, j] => do
    let s ← text s
    let i ← count view.heap i
    let j ← count view.heap j
    pure (.text (midPart s i j))
  | _ => .error (wrongCount 2 3 args.length)

def right (view : View) (args : List Value) : Except Error Value :=
  match args with
  | [s, n] => do
    let s ← text s
    let n ← count view.heap n
    pure (.text (rightPart s n))
  | _ => .error (wrongCount 2 2 args.length)

def str (view : View) (args : List Value) : Except Error Value :=
  match args with
  | [v] => .ok (.text (view.heap.display v))
  | _ => .error (wrongCount 1 1 args.length)

def val (_ : View) (args : List Value) : Except Error Value :=
  match args with
  | [s] => do pure (.number (leadingInteger (← text s).toList))
  | _ => .error (wrongCount 1 1 args.length)

/-- So many copies of one character. -/
def repeated (c : Char) (view : View) (args : List Value) : Except Error Value :=
  match args with
  | [n] => do pure (.text (String.ofList (List.replicate (← count view.heap n) c)))
  | _ => .error (wrongCount 1 1 args.length)

def peek (view : View) (args : List Value) : Except Error Value :=
  match args with
  | [v] => do
    let address ← view.heap.toIndex v
    pure (.number (Float.ofNat (view.memory.getD address 0).toNat))
  | _ => .error (wrongCount 1 1 args.length)

/-- A function of the clock alone. -/
def ofClock (f : Clock → Value) (view : View) (args : List Value) : Except Error Value :=
  if args.isEmpty then .ok (f view.clock) else .error (wrongCount 0 0 args.length)

/-- Draws a number, scaled by a positive argument. A negative argument seeds the source by its whole
part and returns its magnitude. -/
def drawFor (x : Float) : Action Value := do
  if x < 0 then
    modify fun m => { m with random := m.random.reseed x.abs.toUInt64 }
    pure (.number x.abs)
  else
    let m ← get
    let (r, random) := m.random.draw
    set { m with random := random }
    pure (.number (if x > 0 then x * r else r))

def rnd (args : List Value) : Action Value := do
  let x ← match args with
    | [] => pure 0
    | [v] => do Action.ofExcept ((← get).heap.toNumber v)
    | _ => throw (wrongCount 0 1 args.length)
  drawFor x

/-- What a built-in function does. -/
def builtin (args : List Value) : BuiltinFunction → Action Value
  | .abs => computed (math Float.abs) args
  | .rnd => rnd args
  | .sin => computed (math Float.sin) args
  | .cos => computed (math Float.cos) args
  | .tan => computed (math Float.tan) args
  | .atn => computed (math Float.atan) args
  | .atn2 => computed atn2 args
  | .int => computed (math Number.floor) args
  | .exp => computed (math Float.exp) args
  | .log => computed (math Float.log) args
  | .sgn => computed (math sign) args
  | .sqr => computed (math Float.sqrt) args
  | .asc => computed asc args
  | .chr => computed chr args
  | .len => computed len args
  | .left => computed left args
  | .mid => computed mid args
  | .right => computed right args
  | .str => computed str args
  | .val => computed val args
  | .spc => computed (repeated ' ') args
  | .tab => computed (repeated '\t') args
  | .peek => computed peek args
  | .time => computed (ofClock fun c => .number (Float.ofInt c.millis)) args
  | .timeOfDay => computed (ofClock fun c => .text c.timeOfDay) args
  | .date => computed (ofClock fun c => .text c.date) args

/-- Calls a function on the values of its arguments. -/
def call (f : FunctionAction) (args : List Value) : Action Value :=
  match f with
  | .builtin b => builtin args b
  | .host run => ExceptT.mk fun m =>
    let (result, random) := (run m.view args).run m.random
    (result, { m with random := random })

/-- The built-in functions by name. -/
def builtins : List (String × Function) :=
  [("abs", ⟨.builtin .abs, "(x)", "absolute value of [x]"⟩),
   ("rnd", ⟨.builtin .rnd, "(n)", "random number in 0-1, scaled by [n] > 0, seeded by [n] < 0"⟩),
   ("sin", ⟨.builtin .sin, "(x)", "sine of [x]"⟩),
   ("cos", ⟨.builtin .cos, "(x)", "cosine of [x]"⟩),
   ("tan", ⟨.builtin .tan, "(x)", "tangent of [x]"⟩),
   ("atn", ⟨.builtin .atn, "(x)", "angle in radians for tangent of [x]"⟩),
   ("atn2", ⟨.builtin .atn2, "(y, x)", "angle to the ray passing [y, x]"⟩),
   ("int", ⟨.builtin .int, "(x)", "largest integer not greater than [x]"⟩),
   ("exp", ⟨.builtin .exp, "(x)", "e raised to the power of [x]"⟩),
   ("log", ⟨.builtin .log, "(x)", "natural log of [x]"⟩),
   ("sgn", ⟨.builtin .sgn, "(x)", "sign of [x] => -1/0/+1"⟩),
   ("sqr", ⟨.builtin .sqr, "(x)", "square root of [x]"⟩),
   ("asc", ⟨.builtin .asc, "(s$)", "code of the first character"⟩),
   ("chr$", ⟨.builtin .chr, "(x)", "character for code [x]"⟩),
   ("len", ⟨.builtin .len, "(s$)", "length of a string, array or map"⟩),
   ("left$", ⟨.builtin .left, "(s$, x)", "left [x] characters of [s$]"⟩),
   ("mid$", ⟨.builtin .mid, "(s$, n, m)", "characters of [s$] from [n] up to [m]"⟩),
   ("right$", ⟨.builtin .right, "(s$, x)", "right [x] characters of [s$]"⟩),
   ("str$", ⟨.builtin .str, "(x)", "convert [x] into a string"⟩),
   ("val", ⟨.builtin .val, "(s$)", "leading integer of [s$]"⟩),
   ("spc", ⟨.builtin .spc, "(n)", "string of [n] spaces"⟩),
   ("tab", ⟨.builtin .tab, "(n)", "string of [n] tabs"⟩),
   ("peek", ⟨.builtin .peek, "(address)", "content of memory at [address]"⟩),
   ("time", ⟨.builtin .time, "()", "current time in milliseconds"⟩),
   ("time$", ⟨.builtin .timeOfDay, "()", "current time of day"⟩),
   ("date$", ⟨.builtin .date, "()", "current date"⟩)]

end Function

end LineBasic
