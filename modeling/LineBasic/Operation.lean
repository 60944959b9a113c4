import LineBasic.Expr
import LineBasic.Heap.Element
import LineBasic.Number.Read

/-!
# Operations

What unary and binary operators do to values. Arithmetic takes numbers and truth values; the unary
operators take numbers only. `+` joins texts when one side is a text.
-/

namespace LineBasic

set_option autoImplicit false

def UnaryOp.apply : UnaryOp → Value → Except Error Value
  | not, v => .ok (.bool !v.isTruthy)
  | negate, .number x => .ok (.number (-x))
  | floor, .number x => .ok (.number (Number.floor x))
  | round, .number x => .ok (.number (Number.round x))
  | ceiling, .number x => .ok (.number (Number.ceiling x))
  | _, v => .error (.typeMismatch (v.typeName ++ " is not a number"))

/-- Equality of values: numbers and truth values by their number, and a number with a text that is
the number written out. -/
def looselyEqual (a b : Value) : Bool :=
  match a, b with
  | .number x, .text s | .text s, .number x =>
    match Number.read? (Text.trim s.toList) with
    | some y => y == x
    | none => false
  | _, _ =>
    match a.toNumber?, b.toNumber? with
    | some x, some y => x == y
    | _, _ => a.same b

/-- A comparison of two values, given how texts and how numbers compare. -/
def compareWith (texts : String → String → Bool) (numbers : Float → Float → Bool) (a b : Value) :
    Except Error Value :=
  match a, b with
  | .text s, .text t => .ok (.bool (texts s t))
  | _, _ =>
    match a.toNumber?, b.toNumber? with
    | some x, some y => .ok (.bool (numbers x y))
    | _, _ =>
      .error (.typeMismatch ("cannot compare " ++ a.typeName ++ " with " ++ b.typeName))

namespace Heap

/-- An operation on two numbers. -/
def arithmetic (h : Heap) (f : Float → Float → Float) (a b : Value) : Except Error Value := do
  let x ← h.toNumber a
  let y ← h.toNumber b
  pure (.number (f x y))

/-- A division of two numbers, refused when the divisor is zero. -/
def division (h : Heap) (f : Float → Float → Float) (a b : Value) : Except Error Value := do
  let x ← h.toNumber a
  let y ← h.toNumber b
  if y == 0 then throw { code := .divisionByZero }
  pure (.number (f x y))

def sum (h : Heap) (a b : Value) : Except Error Value :=
  match a, b with
  | .text s, _ => .ok (.text (s ++ h.display b))
  | _, .text t => .ok (.text (h.display a ++ t))
  | _, _ => h.arithmetic (· + ·) a b

end Heap

/-- What an operator makes of the values of its two operands. -/
def BinaryOp.apply (h : Heap) (op : BinaryOp) (a b : Value) : Except Error Value :=
  match op with
  | power => h.arithmetic Float.pow a b
  | multiply => h.arithmetic (· * ·) a b
  | divide => h.division (· / ·) a b
  | divideInt => h.division (fun x y => Number.floor (x / y)) a b
  | modulus => h.division Number.remainder a b
  | add => h.sum a b
  | subtract => h.arithmetic (· - ·) a b
  | equal => .ok (.bool (looselyEqual a b))
  | notEqual => .ok (.bool !looselyEqual a b)
  | less => compareWith (· < ·) (· < ·) a b
  | lessEqual => compareWith (· ≤ ·) (· ≤ ·) a b
  | greater => compareWith (· > ·) (· > ·) a b
  | greaterEqual => compareWith (· ≥ ·) (· ≥ ·) a b
  | and => .ok (if a.isTruthy then b else a)
  | or => .ok (if a.isTruthy then a else b)

end LineBasic
