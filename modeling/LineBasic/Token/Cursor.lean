import LineBasic.Error
import LineBasic.Number.Read
import LineBasic.Text.LowerCase
import LineBasic.Token

/-!
# Scanning one token

A cursor stands at a character of the source. Scanning skips blanks, line breaks and comments and
then reads one token. Line breaks are a line feed, a carriage return, or both in this order.

Comments are `#` and doubled `-` or `=`, up to the end of the line. A run of four or more `-` or `=`
opens a block of commented lines, which ends with a line that starts with a run of the same
character and the same length.
-/

namespace LineBasic

set_option autoImplicit false

def isNewline (c : Char) : Bool :=
  c == '\n' || c == '\r'

/-- Characters that end a name: blanks, punctuation and symbolic operators. -/
def isSeparator (c : Char) : Bool :=
  Text.isBlank c || (Token.ofChar? c).isSome

def isNameChar (c : Char) : Bool :=
  !isSeparator c && c != '"' && c != '\'' && c != '#'

structure Cursor where
  rest : List Char
  pos : Pos
  /-- Whether no token was read since the last line break. -/
  lead : Bool
deriving DecidableEq, Repr

namespace Cursor

def ofSource (source : String) : Cursor :=
  ⟨source.toList, ⟨1, 1⟩, true⟩

/-- Moves past `n` characters of the current line. -/
def advance (c : Cursor) (n : Nat) : Cursor :=
  { c with rest := c.rest.drop n, pos := ⟨c.pos.line, c.pos.col + n⟩ }

/-- Moves to the end of the current line. -/
def skipLine (c : Cursor) : Cursor :=
  c.advance (c.rest.takeWhile (!isNewline ·)).length

/-- How many times a text repeats its character `c` in front. -/
def runLength (c : Char) (cs : List Char) : Nat :=
  (cs.takeWhile (· == c)).length

/-- The shortest run that opens a block comment. -/
def blockRun : Nat := 4

/-- What the characters between two tokens belong to. -/
inductive Gap where
  | code
  /-- The rest of a line. -/
  | comment
  /-- A block comment of runs of `mark`; `fresh` while only blanks were seen on the line. -/
  | block (mark : Char) (length : Nat) (fresh : Bool)

/-- The gap after a line break. -/
def Gap.nextLine : Gap → Gap
  | code | comment => code
  | block mark length _ => block mark length true

/-- The gap after one more character `c` of a line, with `cs` behind it; nothing when `c` starts a
token. -/
def Gap.step (c : Char) (cs : List Char) : Gap → Option Gap
  | code =>
    if Text.isBlank c then some code
    else if c = '#' then some comment
    else if (c = '-' ∨ c = '=') ∧ cs.head? = some c then
      let length := runLength c (c :: cs)
      some (if blockRun ≤ length then block c length false else comment)
    else none
  | comment => some comment
  | block mark length fresh =>
    if fresh && Text.isBlank c then some (block mark length true)
    else if fresh && runLength mark (c :: cs) == length then some comment
    else some (block mark length false)

/-- The cursor at the start of the next token or at the end of the source. -/
def skipFrom (gap : Gap) : List Char → Pos → Bool → Cursor
  | [], pos, lead => ⟨[], pos, lead⟩
  | '\r' :: '\n' :: cs, pos, _ => skipFrom gap.nextLine cs ⟨pos.line + 1, 1⟩ true
  | c :: cs, pos, lead =>
    if isNewline c then skipFrom gap.nextLine cs ⟨pos.line + 1, 1⟩ true
    else match gap.step c cs with
      | some next => skipFrom next cs ⟨pos.line, pos.col + 1⟩ lead
      | none => ⟨c :: cs, pos, lead⟩

def skipGap (c : Cursor) : Cursor :=
  skipFrom .code c.rest c.pos c.lead

/-- What one attempt to read a token gives: the token or what is wrong with it, and how many
characters were used up. -/
structure Reading where
  result : Except String Token
  used : Nat

/-- A string runs to the same quote on the same line. -/
def readString (quote : Char) (cs : List Char) : Reading :=
  let body := cs.takeWhile fun c => c != quote && !isNewline c
  if (cs.drop body.length).head? = some quote then
    ⟨.ok (.text (String.ofList body)), body.length + 2⟩
  else ⟨.error "UNEXPECTED END OF STRING", body.length + 1⟩

/-- Hexadecimal digits after `0x`. -/
def readHex (cs : List Char) : Reading :=
  let digits := cs.takeWhile Number.isHexDigit
  if digits.isEmpty then ⟨.error "WRONG HEX NUMBER FORMAT", 2⟩
  else ⟨.ok (.number (Number.ofHexDigits digits)), digits.length + 2⟩

/-- Digits with an optional point. -/
def readDecimal (cs : List Char) : Reading :=
  let whole := cs.takeWhile Char.isDigit
  match cs.drop whole.length with
  | '.' :: more =>
    let fraction := more.takeWhile Char.isDigit
    ⟨.ok (.number (Number.ofDecimal whole fraction 0)), whole.length + 1 + fraction.length⟩
  | _ => ⟨.ok (.number (Number.ofDecimal whole [] 0)), whole.length⟩

/-- A number. A leading zero is followed by `x`, a point, a digit or the end of the number. -/
def readNumber (c : Char) (cs : List Char) : Reading :=
  match c, cs with
  | '0', 'x' :: more => readHex more
  | '0', 'X' :: more => readHex more
  | '0', d :: _ =>
    if d = '.' ∨ d.isDigit then readDecimal (c :: cs)
    else if isSeparator d then ⟨.ok (.number 0), 1⟩
    else ⟨.error "WRONG NUMBER FORMAT", 0⟩
  | '0', [] => ⟨.ok (.number 0), 1⟩
  | _, _ => readDecimal (c :: cs)

/-- Punctuation or a symbolic operator of one or two characters. -/
def readSymbol (c : Char) (cs : List Char) (single : Token) : Reading :=
  match c, cs.head? with
  | '<', some '>' => ⟨.ok (.operator .notEqual), 2⟩
  | '<', some '=' => ⟨.ok (.operator .lessEqual), 2⟩
  | '>', some '=' => ⟨.ok (.operator .greaterEqual), 2⟩
  | _, _ => ⟨.ok single, 1⟩

/-- A reserved word or a name, folded character by character. -/
def readWord (cs : List Char) : Reading :=
  let name := cs.takeWhile isNameChar
  ⟨.ok (.ofWord (String.ofList (Text.foldChars name))), name.length⟩

/-- Reads the token that starts with `c`. -/
def readToken (c : Char) (cs : List Char) : Reading :=
  if c = '"' ∨ c = '\'' then readString c cs
  else if c.isDigit || (c == '.' && (cs.head?.map Char.isDigit).getD false) then readNumber c cs
  else match Token.ofChar? c with
    | some single => readSymbol c cs single
    | none => readWord (c :: cs)

/-- Reads the next token, if there is one. The cursor moves also when that fails. -/
def scan (c : Cursor) : Except Error (Option Lexeme) × Cursor :=
  let start := c.skipGap
  match start.rest with
  | [] => (.ok none, start)
  | ch :: cs =>
    let reading := readToken ch cs
    let stop := start.advance reading.used
    match reading.result with
    | .ok token =>
      (.ok (some ⟨token, start.pos, stop.pos.col, start.lead⟩), { stop with lead := false })
    | .error detail =>
      (.error { code := .lexical, detail := detail, pos := some start.pos }, stop)

end Cursor

end LineBasic
