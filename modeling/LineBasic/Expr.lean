import LineBasic.Number.Shortest
import LineBasic.Pos

/-!
# Expressions

Every node knows its position. A name with parentheses is a call or an element of a container, which
only the running program decides; its selector has one list of arguments per level, the first one
apart because there is always one.
-/

namespace LineBasic

set_option autoImplicit false

inductive UnaryOp where
  | negate | not | floor | round | ceiling
deriving DecidableEq, Repr

inductive BinaryOp where
  | power | multiply | divide | divideInt | modulus | add | subtract
  | equal | notEqual | less | lessEqual | greater | greaterEqual | and | or
deriving DecidableEq, Repr

inductive Expr where
  | number (pos : Pos) (value : Float)
  | text (pos : Pos) (value : String)
  | bool (pos : Pos) (value : Bool)
  /-- A `;` or `,` kept in a print list. -/
  | mark (pos : Pos) (char : Char)
  | var (pos : Pos) (name : String)
  | select (pos : Pos) (name : String) (first : List Expr) (more : List (List Expr))
  | unary (pos : Pos) (op : UnaryOp) (operand : Expr)
  | binary (pos : Pos) (op : BinaryOp) (left right : Expr)
  /-- Several arguments of a command. -/
  | list (pos : Pos) (items : List Expr)
deriving Inhabited, Repr

namespace Expr

mutual

/-- Whether two expressions are the same, positions included. -/
def same : Expr → Expr → Bool
  | number p x, number q y => p = q ∧ x = y
  | text p s, text q t => p = q ∧ s = t
  | bool p a, bool q b => p = q ∧ a = b
  | mark p c, mark q d => p = q ∧ c = d
  | var p s, var q t => p = q ∧ s = t
  | select p s first more, select q t first' more' =>
    p = q ∧ s = t ∧ sameList first first' ∧ sameLevels more more'
  | unary p op e, unary q op' e' => p = q ∧ op = op' ∧ e.same e'
  | binary p op l r, binary q op' l' r' => p = q ∧ op = op' ∧ l.same l' ∧ r.same r'
  | list p es, list q es' => p = q ∧ sameList es es'
  | _, _ => false

def sameList : List Expr → List Expr → Bool
  | [], [] => true
  | e :: es, e' :: es' => e.same e' ∧ sameList es es'
  | _, _ => false

def sameLevels : List (List Expr) → List (List Expr) → Bool
  | [], [] => true
  | es :: more, es' :: more' => sameList es es' ∧ sameLevels more more'
  | _, _ => false

end

mutual

theorem same_iff (e e' : Expr) : e.same e' ↔ e = e' := by
  cases e with
  | select p s first more => cases e' <;> simp [same, sameList_iff first, sameLevels_iff more]
  | unary p op e => cases e' <;> simp [same, same_iff e]
  | binary p op l r => cases e' <;> simp [same, same_iff l, same_iff r]
  | list p es => cases e' <;> simp [same, sameList_iff es]
  | _ => cases e' <;> simp [same]

theorem sameList_iff (es es' : List Expr) : sameList es es' ↔ es = es' := by
  cases es with
  | nil => cases es' <;> simp [sameList]
  | cons e es => cases es' <;> simp [sameList, same_iff e, sameList_iff es]

theorem sameLevels_iff (more more' : List (List Expr)) : sameLevels more more' ↔ more = more' := by
  cases more with
  | nil => cases more' <;> simp [sameLevels]
  | cons es more => cases more' <;> simp [sameLevels, sameList_iff es, sameLevels_iff more]

end

instance : DecidableEq Expr :=
  fun e e' => decidable_of_iff _ (same_iff e e')

end Expr

/-- What selects an element of a container: a list of arguments per level. -/
structure Selector where
  levels : List (List Expr)
deriving DecidableEq, Inhabited, Repr

/-- The levels of a selector as it is written, of which there is at least one. -/
structure Levels where
  first : List Expr
  more : List (List Expr)
deriving DecidableEq, Inhabited, Repr

def Levels.selector (l : Levels) : Selector :=
  ⟨l.first :: l.more⟩

def Expr.pos : Expr → Pos
  | number pos _ | text pos _ | bool pos _ | mark pos _ | var pos _ | select pos _ _ _
  | unary pos _ _ | binary pos _ _ _ | list pos _ => pos

end LineBasic
