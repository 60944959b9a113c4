import LineBasic.Expr

/-!
# Statements

A program is a flat list of statements, so loops are kept by address: the opening and the closing
statement of a loop carry the same header. The type is parametric in how a statement names the
place after its loop: while a program is being read that is the number of the loop, and in a
finished program it is the address itself.
-/

namespace LineBasic

set_option autoImplicit false

/-- Index of a statement in its program. -/
abbrev Address := Nat

/-- What a counting loop's two statements share. -/
structure ForHeader (χ : Type) where
  var : String
  start : Expr
  limit : Expr
  step : Option Expr
  /-- The first statement of the body. -/
  body : Address
  /-- The place after the closing statement. -/
  exit : χ
deriving DecidableEq, Repr

/-- What a guarded loop's two statements share. -/
structure DoHeader (χ : Type) where
  /-- The opening statement, where a pass starts. -/
  top : Address
  /-- The place after the closing statement. -/
  exit : χ
deriving Repr, DecidableEq

inductive Guard where
  | while (condition : Expr)
  | until (condition : Expr)
deriving DecidableEq, Repr

/-- Something that `read` can assign to. -/
inductive Target where
  | var (pos : Pos) (name : String)
  | element (pos : Pos) (name : String) (selector : Selector)
deriving DecidableEq, Repr

inductive Stmt (χ : Type) where
  /-- A command with its arguments; `literal` commands take names instead of their values. -/
  | command (pos : Pos) (name : String) (args : Option Expr) (literal : Bool)
  | assign (pos : Pos) (name : String) (value : Expr)
  | assignElement (pos : Pos) (name : String) (selector : Selector) (value : Expr)
  | dim (pos : Pos) (name : String) (sizes : List Expr)
  | map (pos : Pos) (name : String)
  | when (pos : Pos) (condition : Expr) (taken : Stmt χ)
  | choose (pos : Pos) (condition : Expr) (taken otherwise : Stmt χ)
  | goto (pos : Pos) (target : Expr)
  | gosub (pos : Pos) (target : Expr)
  | onGoto (pos : Pos) (index : Expr) (labels : List String)
  | onGosub (pos : Pos) (index : Expr) (labels : List String)
  | for (pos : Pos) (header : ForHeader χ)
  | next (pos : Pos) (header : ForHeader χ)
  | do (pos : Pos) (guard : Option Guard) (header : DoHeader χ)
  | loop (pos : Pos) (guard : Option Guard) (header : DoHeader χ)
  | leave (pos : Pos) (exit : χ)
  | read (pos : Pos) (targets : List Target)
  | return (pos : Pos)
  | finish (pos : Pos)
deriving DecidableEq, Repr

variable {χ υ : Type}

def ForHeader.mapExit (f : χ → υ) (h : ForHeader χ) : ForHeader υ :=
  ⟨h.var, h.start, h.limit, h.step, h.body, f h.exit⟩

def DoHeader.mapExit (f : χ → υ) (h : DoHeader χ) : DoHeader υ :=
  ⟨h.top, f h.exit⟩

namespace Stmt

def pos : Stmt χ → Pos
  | command pos _ _ _ | assign pos _ _ | assignElement pos _ _ _ | dim pos _ _ | map pos _
  | when pos _ _ | choose pos _ _ _ | goto pos _ | gosub pos _ | onGoto pos _ _ | onGosub pos _ _
  | .for pos _ | next pos _ | .do pos _ _ | loop pos _ _ | leave pos _ | read pos _
  | .return pos | finish pos => pos

/-- Renames the places after loops. -/
def mapExit (f : χ → υ) : Stmt χ → Stmt υ
  | command pos name args literal => command pos name args literal
  | assign pos name value => assign pos name value
  | assignElement pos name selector value => assignElement pos name selector value
  | dim pos name sizes => dim pos name sizes
  | map pos name => map pos name
  | when pos condition taken => when pos condition (taken.mapExit f)
  | choose pos condition taken otherwise =>
    choose pos condition (taken.mapExit f) (otherwise.mapExit f)
  | goto pos target => goto pos target
  | gosub pos target => gosub pos target
  | onGoto pos index labels => onGoto pos index labels
  | onGosub pos index labels => onGosub pos index labels
  | .for pos header => .for pos (header.mapExit f)
  | next pos header => next pos (header.mapExit f)
  | .do pos guard header => .do pos guard (header.mapExit f)
  | loop pos guard header => loop pos guard (header.mapExit f)
  | leave pos exit => leave pos (f exit)
  | read pos targets => read pos targets
  | .return pos => .return pos
  | finish pos => finish pos

end Stmt

/-- A literal stored by `data`. -/
inductive Constant where
  | number (value : Float)
  | text (value : String)
  | bool (value : Bool)
deriving DecidableEq, Repr

/-- A program that was read: its statements, its labels in source order and its data literals in
source order. -/
structure Code where
  statements : Array (Stmt Address)
  labels : List (String × Address)
  data : List Constant
deriving DecidableEq, Repr

end LineBasic
