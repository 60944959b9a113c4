import LineBasic.Number.Shortest
import LineBasic.Pos

/-!
# Tokens

The reserved words of the language, its operators and its punctuation, each with the text that it
shows. A lexeme is a token with its place in the source.
-/

namespace LineBasic

set_option autoImplicit false

/-- Reserved words. -/
inductive Word where
  | rem | let | data | read | if | then | else | goto | gosub | on | for | to | step | next
  | do | loop | while | until | break | return | stop | finish | dim | map
  | true | false | enabled | disabled
deriving DecidableEq, Repr

/-- Symbolic operators and the operators that are words. -/
inductive Operator where
  | caret | multiply | divide | divideInt | percent | mod | plus | minus | tilde | bang
  | equal | notEqual | less | lessEqual | greater | greaterEqual | not | and | or
deriving DecidableEq, Repr

inductive Token where
  | number (value : Float)
  | text (value : String)
  | word (word : Word)
  | operator (op : Operator)
  | ident (name : String)
  | leftParen | rightParen | comma | colon | semicolon | atSign
deriving DecidableEq, Repr

namespace Word

def spelling : Word → String
  | .rem => "rem"
  | .let => "let"
  | .data => "data"
  | .read => "read"
  | .if => "if"
  | .then => "then"
  | .else => "else"
  | .goto => "goto"
  | .gosub => "gosub"
  | .on => "on"
  | .for => "for"
  | .to => "to"
  | .step => "step"
  | .next => "next"
  | .do => "do"
  | .loop => "loop"
  | .while => "while"
  | .until => "until"
  | .break => "break"
  | .return => "return"
  | .stop => "stop"
  | .finish => "end"
  | .dim => "dim"
  | .map => "map"
  | .true => "true"
  | .false => "false"
  | .enabled => "enabled"
  | .disabled => "disabled"

def all : List Word :=
  [.rem, .let, .data, .read, .if, .then, .else, .goto, .gosub, .on, .for, .to, .step, .next,
   .do, .loop, .while, .until, .break, .return, .stop, .finish, .dim, .map,
   .true, .false, .enabled, .disabled]

/-- The truth value that a word stands for, if it is one. -/
def truth? : Word → Option Bool
  | .true | enabled => some Bool.true
  | .false | disabled => some Bool.false
  | _ => none

end Word

namespace Operator

def spelling : Operator → String
  | caret => "^"
  | multiply => "*"
  | divide => "/"
  | divideInt => "\\"
  | percent => "%"
  | mod => "mod"
  | plus => "+"
  | minus => "-"
  | tilde => "~"
  | bang => "!"
  | equal => "="
  | notEqual => "<>"
  | less => "<"
  | lessEqual => "<="
  | greater => ">"
  | greaterEqual => ">="
  | not => "not"
  | and => "and"
  | or => "or"

/-- The operators that are written as words. -/
def words : List Operator :=
  [not, and, or, mod]

end Operator

namespace Token

/-- The token of a single character, for punctuation and symbolic operators. -/
def ofChar? : Char → Option Token
  | '(' => some leftParen
  | ')' => some rightParen
  | ',' => some comma
  | ':' => some colon
  | ';' => some semicolon
  | '@' => some atSign
  | '^' => some (operator .caret)
  | '*' => some (operator .multiply)
  | '/' => some (operator .divide)
  | '\\' => some (operator .divideInt)
  | '%' => some (operator .percent)
  | '~' => some (operator .tilde)
  | '!' => some (operator .bang)
  | '+' => some (operator .plus)
  | '-' => some (operator .minus)
  | '=' => some (operator .equal)
  | '<' => some (operator .less)
  | '>' => some (operator .greater)
  | _ => none

/-- The token of a lower case word: a reserved word, a word operator or else a name. -/
def ofWord (s : String) : Token :=
  match Word.all.find? (·.spelling == s) with
  | some w => word w
  | none =>
    match Operator.words.find? (·.spelling == s) with
    | some op => operator op
    | none => ident s

/-- The text that messages show for a token. -/
def display : Token → String
  | number x => Number.text x
  | text s => "\"" ++ s ++ "\""
  | word w => w.spelling
  | operator op => op.spelling
  | ident s => s
  | leftParen => "("
  | rightParen => ")"
  | comma => ","
  | colon => ":"
  | semicolon => ";"
  | atSign => "@"

end Token

structure Lexeme where
  token : Token
  pos : Pos
  /-- The column just past the last character. -/
  past : Nat
  /-- Whether this is the first token after a line break. -/
  lead : Bool
deriving DecidableEq, Repr

/-- Whether `b` starts exactly where `a` ends. -/
def Lexeme.touches (a b : Lexeme) : Bool :=
  a.pos.line == b.pos.line && a.past == b.pos.col

end LineBasic
