import LineBasic.Token.Cursor

/-!
# Tokens with one token of lookahead

A lexer is a cursor that remembers the token it read last. That token can be handed out a second
time, either because it was only looked at or because it was given back; there is one place for it.
-/

namespace LineBasic

set_option autoImplicit false

structure Lexer where
  cursor : Cursor
  /-- What the last reading gave; nothing before the first one and at the end of the source. -/
  last : Option Lexeme
  /-- Whether `last` is yet to be handed out. -/
  held : Bool
deriving DecidableEq, Repr

namespace Lexer

def ofSource (source : String) : Lexer :=
  ⟨Cursor.ofSource source, none, false⟩

def pos (l : Lexer) : Pos :=
  l.cursor.pos

/-- Makes the next token the held one. -/
def fill (l : Lexer) : Except Error (Option Lexeme) × Lexer :=
  if l.held then (.ok l.last, l)
  else match l.cursor.scan with
    | (.ok lexeme, cursor) => (.ok lexeme, ⟨cursor, lexeme, true⟩)
    | (.error e, cursor) => (.error e, { l with cursor := cursor })

/-- The next token, without taking it. -/
def peek (l : Lexer) : Except Error (Option Lexeme) × Lexer :=
  l.fill

/-- Takes the next token; nothing at the end of the source. -/
def next (l : Lexer) : Except Error (Option Lexeme) × Lexer :=
  match l.fill with
  | (.ok lexeme, l) => (.ok lexeme, { l with held := false })
  | (.error e, l) => (.error e, l)

/-- Gives back the token taken last. -/
def pushback (l : Lexer) : Except Error Lexer :=
  if l.held then .error { code := .internal, detail := "TOKEN ALREADY PUSHED BACK" }
  else .ok { l with held := true }

/-- Drops the rest of the current line. A held token of a later line stays. -/
def skipLine (l : Lexer) : Lexer :=
  match l.held, l.last with
  | true, some lexeme =>
    if lexeme.lead then l else { l with cursor := l.cursor.skipLine, held := false }
  | _, _ => { l with cursor := l.cursor.skipLine, held := false }

end Lexer

/-- All tokens of a source up to the end or the first failure, and where reading stopped. -/
structure Lexed where
  lexemes : List Lexeme
  failure : Option Error
  stop : Pos

/-- Reads tokens, at most `fuel` of them. -/
def Lexer.collect : Nat → Lexer → Lexed
  | 0, l => ⟨[], none, l.pos⟩
  | fuel + 1, l =>
    match l.next with
    | (.ok none, l) => ⟨[], none, l.pos⟩
    | (.ok (some lexeme), l) =>
      let more := l.collect fuel
      { more with lexemes := lexeme :: more.lexemes }
    | (.error e, l) => ⟨[], some e, l.pos⟩

/-- The tokens of a source. There are no more of them than characters. -/
def lex (source : String) : Lexed :=
  (Lexer.ofSource source).collect (source.length + 1)

end LineBasic
