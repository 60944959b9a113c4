import LineBasic.Expr
import LineBasic.Token.Lexer

/-!
# Reading expressions

Binary operators are read by climbing precedences; `^` binds tighter than the one unary operator
that may stand in front of an operand, and everything associates to the left. A line break ends an
expression, so a token counts only if it does not start its line.

The readers are parametric in the reader for what stands in parentheses, and `expression` ties the
knot. Its fuel bounds both the nesting and the number of turns of each loop: every nested reading
and every turn takes a token first, so the length of the source plus one always suffices.
-/

namespace LineBasic

set_option autoImplicit false

/-- Readers that take tokens from a lexer. -/
abbrev Parse (α : Type) := StateT Lexer (Except Error) α

def Error.malformed (pos : Pos) (detail : String) : Error :=
  { code := .malformed, detail := detail, pos := some pos }

namespace Operator

/-- The operation between two operands that an operator stands for, and how tightly it binds. -/
def joins? : Operator → Option (BinaryOp × Nat)
  | or => some (.or, 1)
  | and => some (.and, 2)
  | equal => some (.equal, 3)
  | notEqual => some (.notEqual, 3)
  | less => some (.less, 4)
  | lessEqual => some (.lessEqual, 4)
  | greater => some (.greater, 4)
  | greaterEqual => some (.greaterEqual, 4)
  | plus => some (.add, 5)
  | minus => some (.subtract, 5)
  | multiply => some (.multiply, 6)
  | divide => some (.divide, 6)
  | divideInt => some (.divideInt, 6)
  | percent => some (.modulus, 6)
  | mod => some (.modulus, 6)
  | caret | not | tilde | bang => none

/-- The operation in front of one operand that an operator stands for. -/
def leads? : Operator → Option UnaryOp
  | not => some .not
  | minus => some .negate
  | percent => some .floor
  | tilde => some .round
  | bang => some .ceiling
  | _ => none

end Operator

namespace Parse

/-- Runs an operation of the lexer; its failure is the reader's. -/
def ofLexer {α : Type} (f : Lexer → Except Error α × Lexer) : Parse α := fun l =>
  match f l with
  | (.ok a, l) => .ok (a, l)
  | (.error e, _) => .error e

def next : Parse (Option Lexeme) :=
  ofLexer Lexer.next

def peek : Parse (Option Lexeme) :=
  ofLexer Lexer.peek

def pushback : Parse Unit := fun l =>
  l.pushback.map ((), ·)

/-- Raised when the fuel is used up, which a source never does. -/
def outOfFuel {α : Type} : Parse α :=
  throw { code := .internal, detail := "OUT OF FUEL" }

/-- The next lexeme, if it stands on the current line. -/
def peekOnLine : Parse (Option Lexeme) := do
  match ← peek with
  | some lexeme => if lexeme.lead then pure none else pure (some lexeme)
  | none => pure none

/-- The next token, if it stands on the current line. -/
def peekToken : Parse (Option Token) := do
  pure ((← peekOnLine).map (·.token))

/-- The next operator with its position, if one follows on the current line. -/
def peekOperator : Parse (Option (Operator × Pos)) := do
  match ← peekOnLine with
  | some ⟨.operator op, pos, _, _⟩ => pure (some (op, pos))
  | _ => pure none

/-- Where something is missing: at the next token of the line, or else where reading stands. -/
def missingPos : Parse Pos := do
  match ← peekOnLine with
  | some lexeme => pure lexeme.pos
  | none => pure (← get).pos

/-- Takes the next token of the current line. -/
def nextOnLine (detail : String) : Parse Lexeme := do
  match ← next with
  | some lexeme => if lexeme.lead then throw (.malformed lexeme.pos detail) else pure lexeme
  | none => throw (.malformed (← get).pos detail)

/-- Takes the given token. -/
def expect (token : Token) (detail : String) : Parse Unit := do
  let lexeme ← nextOnLine detail
  if lexeme.token = token then pure () else throw (.malformed lexeme.pos detail)

/-- Takes a name. -/
def ident (detail : String) : Parse (Pos × String) := do
  let lexeme ← nextOnLine detail
  match lexeme.token with
  | .ident name => pure (lexeme.pos, name)
  | _ => throw (.malformed lexeme.pos detail)

/-- Makes a reader insist on an expression. -/
def required (reader : Parse (Option Expr)) : Parse Expr := do
  match ← reader with
  | some e => pure e
  | none => throw (.malformed (← missingPos) "EXPECTED EXPRESSION")

/-- The rest of a selector, through the closing parenthesis. -/
def selectorTail (nested : Parse Expr) : Nat → Parse Levels
  | 0 => outOfFuel
  | n + 1 => do
    let e ← nested
    let lexeme ← nextOnLine "EXPECTED RIGHT PARENTHESIS"
    match lexeme.token with
    | .comma => do
      let rest ← selectorTail nested n
      pure ⟨e :: rest.first, rest.more⟩
    | .colon => do
      let rest ← selectorTail nested n
      pure ⟨[e], rest.first :: rest.more⟩
    | .rightParen => pure ⟨[e], []⟩
    | _ => throw (.malformed lexeme.pos "EXPECTED RIGHT PARENTHESIS")

/-- What follows an opening parenthesis, through the closing one. -/
def selectorWith (nested : Parse Expr) (n : Nat) : Parse Levels := do
  match ← peekToken with
  | some .rightParen => do
    let _ ← next
    pure ⟨[], []⟩
  | _ => selectorTail nested n

/-- Literals, names, selections and expressions in parentheses. Any other token is given back. -/
def atomic (nested : Parse Expr) (n : Nat) : Parse (Option Expr) := do
  match ← next with
  | none => pure none
  | some ⟨token, pos, _, lead⟩ =>
    if lead then
      pushback
      pure none
    else match token with
      | .leftParen => do
        let e ← nested
        expect .rightParen "EXPECTED RIGHT PARENTHESIS"
        pure (some e)
      | .number x => pure (some (.number pos x))
      | .text s => pure (some (.text pos s))
      | .ident name => do
        match ← peekToken with
        | some .leftParen => do
          let _ ← next
          let selector ← selectorWith nested n
          pure (some (.select pos name selector.first selector.more))
        | _ => pure (some (.var pos name))
      | .word w =>
        match w.truth? with
        | some b => pure (some (.bool pos b))
        | none => do
          pushback
          pure none
      | _ => do
        pushback
        pure none

/-- Further powers of `lhs`. -/
def powerTail (atom : Parse (Option Expr)) : Nat → Expr → Parse Expr
  | 0, _ => outOfFuel
  | n + 1, lhs => do
    match ← peekOperator with
    | some (.caret, pos) => do
      let _ ← next
      let rhs ← required atom
      powerTail atom n (.binary pos .power lhs rhs)
    | _ => pure lhs

/-- Powers of atomic expressions. -/
def power (nested : Parse Expr) (n : Nat) : Parse (Option Expr) := do
  match ← atomic nested n with
  | some lhs => some <$> powerTail (atomic nested n) n lhs
  | none => pure none

/-- A power with at most one unary operator in front. -/
def operand (nested : Parse Expr) (n : Nat) : Parse (Option Expr) := do
  match ← peekOperator with
  | some (op, pos) =>
    match op.leads? with
    | some op => do
      let _ ← next
      let e ← required (power nested n)
      pure (some (.unary pos op e))
    | none => power nested n
  | none => power nested n

/-- Extends `lhs` by operators that bind at least as tightly as `level`. -/
def climb (nested : Parse Expr) (m : Nat) : Nat → Nat → Expr → Parse Expr
  | 0, _, _ => outOfFuel
  | n + 1, level, lhs => do
    match ← peekOperator with
    | some (op, pos) =>
      match op.joins? with
      | some (op, tightness) =>
        if tightness < level then pure lhs
        else do
          let _ ← next
          let first ← required (operand nested m)
          let rhs ← climb nested m n (tightness + 1) first
          climb nested m n level (.binary pos op lhs rhs)
      | none => pure lhs
    | none => pure lhs

/-- An expression, or nothing when no expression starts here. -/
def expression : Nat → Parse (Option Expr)
  | 0 => outOfFuel
  | n + 1 => do
    let nested := required (expression n)
    match ← operand nested n with
    | some lhs => some <$> climb nested n n 1 lhs
    | none => pure none

/-- An expression that has to be there. -/
def expr (n : Nat) : Parse Expr :=
  required (expression n)

/-- A selector after its opening parenthesis. -/
def selector (n : Nat) : Parse Levels :=
  selectorWith (expr n) n

/-- Expressions with `,` or `;` between them and perhaps behind; the separators are kept as marks
if `keep` is set. -/
def items (keep : Bool) (m : Nat) : Nat → Parse (List Expr)
  | 0 => outOfFuel
  | n + 1 => do
    match ← expression m with
    | none => pure []
    | some e =>
      match ← peekOnLine with
      | some ⟨.comma, pos, _, _⟩ => do
        let _ ← next
        let rest ← items keep m n
        pure (if keep then e :: .mark pos ',' :: rest else e :: rest)
      | some ⟨.semicolon, pos, _, _⟩ => do
        let _ ← next
        let rest ← items keep m n
        pure (if keep then e :: .mark pos ';' :: rest else e :: rest)
      | _ => pure [e]

/-- The arguments of a command: nothing, one expression, or a list of several. -/
def arguments (keep : Bool) (n : Nat) : Parse (Option Expr) := do
  match ← items keep n n with
  | [] => pure none
  | [e] => pure (some e)
  | e :: es => pure (some (.list e.pos (e :: es)))

end Parse

end LineBasic
