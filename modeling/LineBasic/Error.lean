import LineBasic.Pos
import LineBasic.Text.Lines

/-!
# Errors

An error has a code, which fixes its number, its stage and its headline, and it may know where it
happened, what exactly was wrong and which source line it points at. The position that is set first
stays: it is the most precise one.
-/

namespace LineBasic

set_option autoImplicit false

/-- What went wrong. -/
inductive ErrorCode where
  | nextWithoutFor
  | malformed
  | outOfData
  | illegalFunctionCall
  | overflow
  | outOfMemory
  | undefinedLabel
  | subscriptOutOfRange
  | divisionByZero
  | typeMismatch
  | cantContinue
  | undefinedFunction
  | forWithoutNext
  | doWithoutLoop
  | loopWithoutDo
  | breakOutsideLoop
  | lexical
  | unknownIdentifier
  | unknownCommand
  | interrupted
  | internal
  | fileNotFound
deriving DecidableEq, Repr

/-- The stage that an error comes from. -/
inductive ErrorKind where
  | lexical
  | grammar
  | execution
deriving DecidableEq, Repr

namespace ErrorCode

/-- The number under which an error is known. -/
def number : ErrorCode → Nat
  | nextWithoutFor => 1
  | malformed => 2
  | outOfData => 4
  | illegalFunctionCall => 5
  | overflow => 6
  | outOfMemory => 7
  | undefinedLabel => 8
  | subscriptOutOfRange => 9
  | divisionByZero => 11
  | typeMismatch => 13
  | cantContinue => 17
  | undefinedFunction => 18
  | forWithoutNext => 26
  | doWithoutLoop => 29
  | loopWithoutDo => 30
  | breakOutsideLoop => 31
  | lexical => 40
  | unknownIdentifier => 41
  | unknownCommand => 42
  | interrupted => 43
  | internal => 51
  | fileNotFound => 53

/-- The headline of an error message. -/
def headline : ErrorCode → String
  | nextWithoutFor => "NEXT WITHOUT FOR"
  | malformed => "SYNTAX ERROR"
  | outOfData => "OUT OF DATA"
  | illegalFunctionCall => "ILLEGAL FUNCTION CALL"
  | overflow => "OVERFLOW"
  | outOfMemory => "OUT OF MEMORY"
  | undefinedLabel => "UNDEFINED LABEL"
  | subscriptOutOfRange => "SUBSCRIPT OUT OF RANGE"
  | divisionByZero => "DIVISION BY ZERO"
  | typeMismatch => "TYPE MISMATCH"
  | cantContinue => "CAN'T CONTINUE"
  | undefinedFunction => "UNDEFINED FUNCTION"
  | forWithoutNext => "FOR WITHOUT NEXT"
  | doWithoutLoop => "DO WITHOUT LOOP"
  | loopWithoutDo => "LOOP WITHOUT DO"
  | breakOutsideLoop => "BREAK OUTSIDE LOOP"
  | lexical => "LEXICAL ERROR"
  | unknownIdentifier => "UNKNOWN IDENTIFIER"
  | unknownCommand => "UNKNOWN COMMAND"
  | interrupted => "BREAK"
  | internal => "INTERNAL ERROR"
  | fileNotFound => "FILE NOT FOUND"

def kind : ErrorCode → ErrorKind
  | lexical => .lexical
  | malformed | nextWithoutFor | forWithoutNext | doWithoutLoop | loopWithoutDo
  | breakOutsideLoop => .grammar
  | _ => .execution

end ErrorCode

structure Error where
  code : ErrorCode
  /-- What exactly was wrong; empty when the headline says it all. -/
  detail : String := ""
  pos : Option Pos := none
  /-- The source line that the position points at. -/
  excerpt : Option String := none
deriving DecidableEq, Repr

namespace Error

/-- Sets the position unless a more precise one is known. -/
def locatedAt (e : Error) (p : Pos) : Error :=
  match e.pos with
  | some _ => e
  | none => { e with pos := some p }

/-- Keeps the line of `source` that the error points at, unless it has one already. -/
def withSource (e : Error) (source : String) : Error :=
  match e.excerpt, e.pos with
  | none, some p => { e with excerpt := (Text.lines source.toList)[p.line - 1]?.map String.ofList }
  | _, _ => e

theorem code_locatedAt (e : Error) (pos : Pos) : (e.locatedAt pos).code = e.code := by
  unfold locatedAt
  split <;> rfl

theorem code_withSource (e : Error) (source : String) :
    (e.withSource source).code = e.code := by
  unfold withSource
  split <;> rfl

/-- The headline, followed by position and detail as far as they are known. -/
def message (e : Error) : String :=
  let place := match e.pos with
    | some p => " " ++ p.text
    | none => ""
  let cause := if e.detail.isEmpty then "" else "; " ++ e.detail
  if (place ++ cause).isEmpty then e.code.headline
  else e.code.headline ++ " IN" ++ place ++ cause

@[simp] theorem locatedAt_of_pos {e : Error} {p q : Pos} (h : e.pos = some p) :
    e.locatedAt q = e := by
  simp [locatedAt, h]

end Error

end LineBasic
