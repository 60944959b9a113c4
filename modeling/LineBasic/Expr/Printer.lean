import LineBasic.Expr

/-!
# Printed expressions

Every binary operation is printed in parentheses, and every other expression without.
-/

namespace LineBasic

set_option autoImplicit false

def UnaryOp.spelling : UnaryOp → String
  | negate => "-"
  | not => "not "
  | floor => "%"
  | round => "~"
  | ceiling => "!"

def BinaryOp.spelling : BinaryOp → String
  | power => "^"
  | multiply => "*"
  | divide => "/"
  | divideInt => "\\"
  | modulus => "mod"
  | add => "+"
  | subtract => "-"
  | equal => "="
  | notEqual => "<>"
  | less => "<"
  | lessEqual => "<="
  | greater => ">"
  | greaterEqual => ">="
  | and => "and"
  | or => "or"

namespace Expr

mutual

def display : Expr → String
  | number _ x => Number.text x
  | text _ s => "\"" ++ s ++ "\""
  | bool _ b => if b then "true" else "false"
  | mark _ c => c.toString
  | var _ name => name
  | select _ name first more => name ++ "(" ++ displayList first ++ displayLevels more ++ ")"
  | unary _ op e => op.spelling ++ display e
  | binary _ op l r => "(" ++ display l ++ " " ++ op.spelling ++ " " ++ display r ++ ")"
  | list _ items => displayList items

/-- Expressions with commas between them. -/
def displayList : List Expr → String
  | [] => ""
  | e :: es => display e ++ displayTail es

/-- Expressions with a comma in front of each. -/
def displayTail : List Expr → String
  | [] => ""
  | e :: es => ", " ++ display e ++ displayTail es

/-- The levels after the first, with a colon in front of each. -/
def displayLevels : List (List Expr) → String
  | [] => ""
  | level :: more => " : " ++ displayList level ++ displayLevels more

end

end Expr

end LineBasic
