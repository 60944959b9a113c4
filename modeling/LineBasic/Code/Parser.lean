import LineBasic.Expr.Parser
import LineBasic.Stmt

/-!
# Reading programs

Statements are read one after another into a draft. A loop gets a number when it opens, and the
address after it is entered in a table when it closes; at the end every statement's loop number is
looked up. Labels and data literals are collected on the way and make no statements.

Fuel is spent as in the reading of expressions: each turn takes a token.
-/

namespace LineBasic

set_option autoImplicit false

/-- The number of a loop in the order of opening. -/
abbrev LoopId := Nat

/-- A loop that was opened and not yet closed. -/
inductive OpenLoop where
  | for (pos : Pos) (header : ForHeader LoopId)
  | do (pos : Pos) (header : DoHeader LoopId)

def OpenLoop.exit : OpenLoop → LoopId
  | .for _ header => header.exit
  | .do _ header => header.exit

/-- The error of a loop that is never closed. -/
def OpenLoop.unclosed : OpenLoop → Error
  | .for pos _ => { code := .forWithoutNext, pos := some pos }
  | .do pos _ => { code := .doWithoutLoop, pos := some pos }

/-- A program in the making. -/
structure Draft where
  statements : Array (Stmt LoopId) := #[]
  labels : Array (String × Address) := #[]
  data : Array Constant := #[]
  /-- The open loops, innermost first. -/
  loops : List OpenLoop := []
  /-- The address after each loop; zero while the loop is open. -/
  exits : Array Address := #[]

namespace Draft

/-- The address that the next statement gets. -/
def here (d : Draft) : Address :=
  d.statements.size

/-- Resolves the loop numbers. -/
def finish (d : Draft) : Except Error Code :=
  match d.loops with
  | loop :: _ => .error loop.unclosed
  | [] => .ok {
      statements := d.statements.map (·.mapExit fun loop => d.exits.getD loop 0)
      labels := d.labels.toList
      data := d.data.toList }

end Draft

/-- Whether a name is a label, given what follows it: a colon right behind a name that starts a line. -/
def Lexeme.isLabel (lexeme : Lexeme) (following : Option Lexeme) : Bool :=
  following.any fun after => lexeme.lead && after.token == .colon && lexeme.touches after

/-- Readers that also extend a draft. -/
abbrev Build (α : Type) := StateT Draft Parse α

namespace Build

open Parse (next peek peekToken missingPos nextOnLine expect ident expr selector)

def here : Build Address := do
  pure (← getThe Draft).here

def addLabel (name : String) : Build Unit :=
  modifyThe Draft fun d => { d with labels := d.labels.push (name, d.here) }

def addData (constant : Constant) : Build Unit :=
  modifyThe Draft fun d => { d with data := d.data.push constant }

/-- The number that the next loop gets. -/
def nextLoopId : Build LoopId := do
  pure (← getThe Draft).exits.size

/-- Opens the loop with the next number. -/
def openLoop (loop : OpenLoop) : Build Unit :=
  modifyThe Draft fun d => { d with loops := loop :: d.loops, exits := d.exits.push 0 }

/-- The innermost open loop, which is no longer open then. -/
def takeLoop? : Build (Option OpenLoop) := do
  match (← getThe Draft).loops with
  | [] => pure none
  | loop :: outer => do
    modifyThe Draft fun d => { d with loops := outer }
    pure (some loop)

/-- Enters the address after a loop that the statement about to be added closes. -/
def closeLoop (loop : LoopId) : Build Unit :=
  modifyThe Draft fun d => { d with exits := d.exits.setIfInBounds loop (d.here + 1) }

/-- Whether the next token on this line is `token`; it is then taken. -/
def accept (token : Token) : Build Bool := do
  if (← peekToken) = some token then
    let _ ← next
    pure true
  else pure false

/-- One literal of a `data` statement. -/
def constant : Build Constant := do
  let lexeme ← nextOnLine "EXPECTED CONSTANT"
  match lexeme.token with
  | .number x => pure (.number x)
  | .text s => pure (.text s)
  | .operator .minus => do
    match (← nextOnLine "EXPECTED NUMBER").token with
    | .number x => pure (.number (-x))
    | _ => throw (.malformed lexeme.pos "EXPECTED NUMBER")
  | .word w =>
    match w.truth? with
    | some b => pure (.bool b)
    | none => throw (.malformed lexeme.pos "EXPECTED CONSTANT")
  | _ => throw (.malformed lexeme.pos "EXPECTED CONSTANT")

/-- The literals of a `data` statement. -/
def data : Nat → Build Unit
  | 0 => Parse.outOfFuel
  | n + 1 => do
    addData (← constant)
    if ← accept .comma then data n

/-- The commands that take names instead of their values. -/
def literalCommands : List String :=
  ["input", "help"]

def command (n : Nat) (pos : Pos) (name : String) : Build (Stmt LoopId) := do
  let args ← Parse.arguments (name == "print") n
  pure (.command pos name args (literalCommands.contains name))

/-- The element that a statement assigns to, when it starts like one; the tokens are only taken if
it does. -/
def assignedElement? (n : Nat) : Build (Option Levels) := do
  let saved ← getThe Lexer
  let _ ← next
  match (selector n).run (← getThe Lexer) with
  | .error _ => do
    set saved
    pure none
  | .ok (levels, lexer) => do
    set lexer
    if ← accept (.operator .equal) then pure (some levels)
    else
      set saved
      pure none

/-- A statement that starts with a name. -/
def assignmentOrCommand (n : Nat) (pos : Pos) (name : String) : Build (Stmt LoopId) := do
  match ← peekToken with
  | some (.operator .equal) => do
    let _ ← next
    pure (.assign pos name (← expr n))
  | some .leftParen => do
    match ← assignedElement? n with
    | some levels => pure (.assignElement pos name levels.selector (← expr n))
    | none => command n pos name
  | _ => command n pos name

def assign (n : Nat) (pos : Pos) : Build (Stmt LoopId) := do
  let (_, name) ← ident "EXPECTED VARIABLE NAME"
  if ← accept .leftParen then
    let levels ← selector n
    expect (.operator .equal) "EXPECTED ="
    pure (.assignElement pos name levels.selector (← expr n))
  else
    expect (.operator .equal) "EXPECTED ="
    pure (.assign pos name (← expr n))

def dim (n : Nat) (pos : Pos) : Build (Stmt LoopId) := do
  let (_, name) ← ident "EXPECTED ARRAY NAME"
  expect .leftParen "EXPECTED LEFT PARENTHESIS"
  let sizes ← selector n
  if sizes.first.isEmpty || !sizes.more.isEmpty then
    throw (.malformed pos "EXPECTED ARRAY SIZES")
  pure (.dim pos name sizes.first)

/-- The targets of a `read` statement. -/
def targets (m : Nat) : Nat → Build (List Target)
  | 0 => Parse.outOfFuel
  | n + 1 => do
    let (pos, name) ← ident "EXPECTED VARIABLE NAME"
    let target ← if ← accept .leftParen then
        pure (Target.element pos name (← selector m).selector)
      else pure (Target.var pos name)
    if ← accept .comma then pure (target :: (← targets m n)) else pure [target]

/-- Where a jump goes: `@` and a name, or an expression. -/
def target (n : Nat) : Build Expr := do
  if ← accept .atSign then
    let (pos, name) ← ident "EXPECTED LABEL"
    pure (.text pos name)
  else expr n

/-- One label of an `on` statement. -/
def label : Build String := do
  let lexeme ← nextOnLine "EXPECTED LABEL"
  match lexeme.token with
  | .number x => pure (Number.text x)
  | .ident name => pure name
  | .atSign => pure (← ident "EXPECTED LABEL").2
  | _ => throw (.malformed lexeme.pos "EXPECTED LABEL")

/-- The labels of an `on` statement. -/
def labels : Nat → Build (List String)
  | 0 => Parse.outOfFuel
  | n + 1 => do
    let first ← label
    if ← accept .comma then pure (first :: (← labels n)) else pure [first]

def guard (n : Nat) : Build (Option Guard) := do
  if ← accept (.word .while) then pure (some (.while (← expr n)))
  else if ← accept (.word .until) then pure (some (.until (← expr n)))
  else pure none

/-- A branch that is only a target. -/
def jump (n : Nat) : Build (Stmt LoopId) := do
  let pos ← missingPos
  pure (.goto pos (← target n))

/-- The kinds of branches that an `if` can have. -/
inductive Branching where
  | statement | goto | gosub

def missingStatement : Build (Stmt LoopId) := do
  throw (.malformed (← getThe Lexer).pos "EXPECTED STATEMENT")

def onJump (n : Nat) (pos : Pos) : Build (Stmt LoopId) := do
  let index ← expr n
  let lexeme ← nextOnLine "EXPECTED GOTO OR GOSUB"
  match lexeme.token with
  | .word .goto => do pure (.onGoto pos index (← labels n))
  | .word .gosub => do pure (.onGosub pos index (← labels n))
  | _ => throw (.malformed lexeme.pos "EXPECTED GOTO OR GOSUB")

def forLoop (n : Nat) (pos : Pos) : Build (Stmt LoopId) := do
  let (_, var) ← ident "EXPECTED LOOP VARIABLE"
  expect (.operator .equal) "EXPECTED ="
  let start ← expr n
  expect (.word .to) "EXPECTED TO"
  let limit ← expr n
  let step ← if ← accept (.word .step) then some <$> (expr n : Build Expr) else pure none
  let header : ForHeader LoopId := ⟨var, start, limit, step, (← here) + 1, ← nextLoopId⟩
  openLoop (.for pos header)
  pure (.for pos header)

/-- A `next` statement, when it is known which variable it names. -/
def nextNamed (pos : Pos) (named : Option String) : Build (Stmt LoopId) := do
  match ← takeLoop? with
  | none => throw { code := .nextWithoutFor, pos := some pos }
  | some (.do _ _) =>
    throw { code := .nextWithoutFor, detail := "NEXT INSIDE DO LOOP", pos := some pos }
  | some (.for _ header) => do
    if named.any (· != header.var) then
      throw { code := .nextWithoutFor, detail := "EXPECTED NEXT " ++ header.var, pos := some pos }
    closeLoop header.exit
    pure (.next pos header)

def nextLoop (pos : Pos) : Build (Stmt LoopId) := do
  match ← peekToken with
  | some (.ident name) => do
    let _ ← next
    nextNamed pos (some name)
  | _ => nextNamed pos none

def doLoop (n : Nat) (pos : Pos) : Build (Stmt LoopId) := do
  let guard ← guard n
  let header : DoHeader LoopId := ⟨← here, ← nextLoopId⟩
  openLoop (.do pos header)
  pure (.do pos guard header)

def loopEnd (n : Nat) (pos : Pos) : Build (Stmt LoopId) := do
  let guard ← guard n
  match ← takeLoop? with
  | none => throw { code := .loopWithoutDo, pos := some pos }
  | some (.for _ _) =>
    throw { code := .loopWithoutDo, detail := "LOOP INSIDE FOR LOOP", pos := some pos }
  | some (.do _ header) => do
    closeLoop header.exit
    pure (.loop pos guard header)

def breakLoop (pos : Pos) : Build (Stmt LoopId) := do
  match (← getThe Draft).loops with
  | loop :: _ => pure (.leave pos loop.exit)
  | [] => throw { code := .breakOutsideLoop, pos := some pos }

/-- A statement that starts with a reserved word, and has no statements inside. -/
def ofWord (n : Nat) (pos : Pos) (word : Word) : Build (Stmt LoopId) :=
  match word with
  | .let => assign n pos
  | .dim => dim n pos
  | .map => do pure (.map pos (← ident "EXPECTED MAP NAME").2)
  | .read => do pure (.read pos (← targets n n))
  | .goto => do pure (.goto pos (← target n))
  | .gosub => do pure (.gosub pos (← target n))
  | .on => onJump n pos
  | .for => forLoop n pos
  | .next => nextLoop pos
  | .do => doLoop n pos
  | .loop => loopEnd n pos
  | .break => breakLoop pos
  | .return => pure (.return pos)
  | .stop | .finish => pure (.finish pos)
  | _ => throw (.malformed pos ("UNEXPECTED " ++ word.spelling))

/-!
What becomes of a label is left open in the readers from here on: they hand it over with its token,
and run in any monad in which it can be dealt with.
-/

section

variable {M : Type → Type} [Monad M] [MonadLiftT Build M]

/-- A statement that has to be there. -/
def insisted (statement : M (Option (Stmt LoopId))) : M (Stmt LoopId) := do
  match ← statement with
  | some s => pure s
  | none => missingStatement

/-- What follows `then` or `else`: a line number, `@` and a label, or a statement. -/
def branch (statement : M (Option (Stmt LoopId))) (n : Nat) : M (Stmt LoopId) := do
  match ← (peekToken : Build (Option Token)) with
  | some (.number _) => jump n
  | some .atSign => jump n
  | _ => insisted statement

/-- One branch of an `if`; `pos` is where the word in front of it stands. -/
def branchOf (statement : M (Option (Stmt LoopId))) (n : Nat) (pos : Pos) :
    Branching → M (Stmt LoopId)
  | .statement => branch statement n
  | .goto => do pure (.goto pos (← target n))
  | .gosub => do pure (.gosub pos (← target n))

/-- What follows the condition of an `if` and the word that says what its branches are. The `else` may
stand on a later line. -/
def branches (statement : M (Option (Stmt LoopId))) (n : Nat) (pos wordPos : Pos) (condition : Expr)
    (branching : Branching) : M (Stmt LoopId) := do
  let taken ← branchOf statement n wordPos branching
  match ← (peek : Build (Option Lexeme)) with
  | some ⟨.word .else, elsePos, _, _⟩ => do
    let _ ← (next : Build (Option Lexeme))
    pure (.choose pos condition taken (← branchOf statement n elsePos branching))
  | _ => pure (.when pos condition taken)

/-- The condition of an `if`, with the kind of its branches and where the word stands that says it. -/
def condition (n : Nat) : Build (Expr × Branching × Pos) := do
  let condition ← expr n
  let lexeme ← nextOnLine "EXPECTED THEN"
  match lexeme.token with
  | .word .then => pure (condition, .statement, lexeme.pos)
  | .word .goto => pure (condition, .goto, lexeme.pos)
  | .word .gosub => pure (condition, .gosub, lexeme.pos)
  | _ => throw (.malformed lexeme.pos "EXPECTED THEN")

/-- An `if` statement. -/
def conditional (statement : M (Option (Stmt LoopId))) (n : Nat) (pos : Pos) :
    M (Stmt LoopId) := do
  let (condition, branching, wordPos) ← condition n
  branches statement n pos wordPos condition branching

/-- What follows a token. If no statement starts with it, one is read by `statement`; statements in
branches are read by `inner`. -/
def statementFrom (mark : Lexeme → String → M Unit) (statement inner : M (Option (Stmt LoopId)))
    (n : Nat) (lexeme : Lexeme) : M (Option (Stmt LoopId)) :=
  match lexeme.token with
  | .colon => statement
  | .number x => do
    mark lexeme (Number.text x)
    statement
  | .ident name => do
    let following ← (peek : Build (Option Lexeme))
    if lexeme.isLabel following then
      let _ ← (next : Build (Option Lexeme))
      mark lexeme name
      statement
    else some <$> liftM (assignmentOrCommand n lexeme.pos name)
  | .word .rem => do
    (modifyThe Lexer Lexer.skipLine : Build Unit)
    statement
  | .word .data => do
    data n
    statement
  | .word .if => some <$> conditional inner n lexeme.pos
  | .word word => some <$> liftM (ofWord n lexeme.pos word)
  | token => (throw (.malformed lexeme.pos ("UNEXPECTED " ++ token.display)) : Build _)

/-- The next statement, after any labels, data, remarks and colons; nothing at the end. Labels in front
of it go to `mark`, and those in its branches to `inner`. -/
def statementWith (mark inner : Lexeme → String → M Unit) : Nat → M (Option (Stmt LoopId))
  | 0 => (Parse.outOfFuel : Build (Option (Stmt LoopId)))
  | n + 1 => do
    match ← (next : Build (Option Lexeme)) with
    | none => pure none
    | some lexeme =>
      statementFrom mark (statementWith mark inner n) (statementWith inner inner n) n lexeme

/-- All statements. -/
def programWith (mark inner : Lexeme → String → M Unit) : Nat → M Unit
  | 0 => (Parse.outOfFuel : Build Unit)
  | n + 1 => do
    match ← statementWith mark inner (n + 1) with
    | none => pure ()
    | some s => do
      (modifyThe Draft fun d => { d with statements := d.statements.push s } : Build Unit)
      programWith mark inner n

end

/-- The next statement, with all labels entered in the draft. -/
def statement (n : Nat) : Build (Option (Stmt LoopId)) :=
  statementWith (fun _ => addLabel) (fun _ => addLabel) n

def program (n : Nat) : Build Unit :=
  programWith (fun _ => addLabel) (fun _ => addLabel) n

end Build

/-- Reads a program. Errors show the line that they point at. -/
def parse (source : String) : Except Error Code :=
  let read : Except Error Code := do
    let ((_, draft), _) ← ((Build.program (source.length + 1)).run {}).run (Lexer.ofSource source)
    draft.finish
  read.mapError (·.withSource source)

end LineBasic
