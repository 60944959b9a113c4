import LineBasic.Machine.Functions

/-!
# Evaluation

A name with arguments is an element when the name holds a container, and a call of a function
otherwise. While the arguments of some commands are evaluated, a plain name stands for itself.
-/

namespace LineBasic

set_option autoImplicit false

def Error.unknownIdentifier (name : String) : Error :=
  { code := .unknownIdentifier, detail := "unknown identifier [" ++ name ++ "]" }

def Error.notSelectable (name : String) : Error :=
  .typeMismatch (name ++ " is not an array or map")

namespace Action

/-- Gives errors a position unless they have one. -/
def located {α : Type} (pos : Pos) (x : Action α) : Action α :=
  x.adapt (·.locatedAt pos)

/-- The value of a plain name. -/
def lookup (pos : Pos) (name : String) : Action Value := do
  let m ← get
  if m.literalNames then pure (.name name)
  else match m.scope.fetch name with
    | some v => pure v
    | none => throw ((Error.unknownIdentifier name).locatedAt pos)

/-- An element of a container. -/
def element (container : Value) (keys : List Value) : Action Value := do
  ofExcept ((← get).heap.getElement container keys)

mutual

def eval : Expr → Action Value
  | .number _ x => pure (.number x)
  | .text _ s => pure (.text s)
  | .bool _ b => pure (.bool b)
  | .mark _ c => pure (.mark c)
  | .var pos name => lookup pos name
  | .select pos name first more => do
    let m ← get
    match (m.scope.fetch name).filter Value.isContainer with
    | some container => do
      let keys ← evalAll first
      let v ← located pos (element container keys)
      fetchFrom pos name v more
    | none =>
      match m.functions[name]? with
      | none =>
        throw { code := .undefinedFunction, detail := "unknown function [" ++ name ++ "]",
                pos := some pos }
      | some f => do
        if !more.isEmpty then
          throw ((Error.illegalCall (name ++ " is not an array or map")).locatedAt pos)
        let args ← evalAll first
        located pos (Function.call f.action args)
  | .unary pos op e => do
    let v ← eval e
    located pos (ofExcept (op.apply v))
  | .binary _ .and l r => do
    let v ← eval l
    if v.isTruthy then eval r else pure v
  | .binary _ .or l r => do
    let v ← eval l
    if v.isTruthy then pure v else eval r
  | .binary pos op l r => do
    let v ← eval l
    let w ← eval r
    located pos (ofExcept (op.apply (← get).heap v w))
  | .list pos _ =>
    throw { code := .internal, detail := "LIST OUTSIDE OF ARGUMENTS", pos := some pos }

/-- The values of several expressions, from left to right. -/
def evalAll : List Expr → Action (List Value)
  | [] => pure []
  | e :: es => do
    let v ← eval e
    let vs ← evalAll es
    pure (v :: vs)

/-- The element that further levels of a selector lead to. -/
def fetchFrom (pos : Pos) (name : String) (v : Value) : List (List Expr) → Action Value
  | [] => pure v
  | level :: more => do
    if !v.isContainer then throw ((Error.notSelectable name).locatedAt pos)
    let keys ← evalAll level
    let v ← located pos (element v keys)
    fetchFrom pos name v more

end

/-- The values of a command's arguments. -/
def evalArgs : Option Expr → Action (List Value)
  | none => pure []
  | some (.list _ items) => evalAll items
  | some e => do pure [← eval e]

/-- The place that a level of a selector and the levels after it lead to from a container. -/
def slotFrom (name : String) (container : Value) (level : List Expr) :
    List (List Expr) → Action Slot
  | [] => do
    let keys ← evalAll level
    ofExcept ((← get).heap.locate .writing container keys)
  | following :: more => do
    let keys ← evalAll level
    let v ← element container keys
    if !v.isContainer then throw (Error.notSelectable name)
    slotFrom name v following more

/-- The place that a name and a selector lead to, to be written. -/
def slot (name : String) (selector : Selector) : Action Slot := do
  match (← get).scope.fetch name with
  | none => throw (Error.unknownIdentifier name)
  | some v =>
    if v.isContainer then
      match selector.levels with
      | [] => throw { code := .malformed, detail := "EXPECTED INDEX" }
      | first :: more => slotFrom name v first more
    else throw (Error.notSelectable name)

/-- Runs an action while plain names stand for themselves, or do not. -/
def naming {α : Type} (literalNames : Bool) (x : Action α) : Action α :=
  ExceptT.mk fun m =>
    let (result, m) := x.run { m with literalNames := literalNames }
    (result, { m with literalNames := false })

end Action

end LineBasic
