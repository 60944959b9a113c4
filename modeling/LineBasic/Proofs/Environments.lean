import LineBasic.Machine.Eval

/-!
# Evaluation only reads

The machine is handed through an evaluation and through every function that is called on the way. What
an evaluation reads of it is an environment, and all that it may change is the random source: it comes
to the same as an evaluation in the environment, which has only the random source at hand. This is said
once for every form of expression and for every function.
-/

namespace LineBasic

set_option autoImplicit false

/-- What an evaluation reads. -/
structure Env extends View where
  scope : Scope
  functions : Std.TreeMap String Function
  literalNames : Bool

def Machine.env (m : Machine) : Env :=
  { m.view with scope := m.scope, functions := m.functions, literalNames := m.literalNames }

/-- A machine that shows so much and is blank otherwise. -/
def View.machine (view : View) (random : Random) : Machine where
  scope := {}
  data := {}
  memory := view.memory
  returns := Machine.noReturns
  code := none
  pc := 0
  resume := none
  status := .stopped
  program := {}
  listing := {}
  tracing := false
  heap := view.heap
  config := {}
  outputs := 0
  pending := []
  commands := ∅
  functions := ∅
  random := random
  clock := view.clock
  literalNames := false

/-- What a function does with what it can see. -/
def Function.run (f : Function) (view : View) (args : List Value) : Eval Value :=
  ExceptT.mk fun random =>
    let (result, m) := (call f.action args).run (view.machine random)
    (result, m.random)

/-- What `rnd` does with the number that it is given. -/
def Function.draw (x : Float) : Eval Value := do
  if x < 0 then
    modify (·.reseed x.abs.toUInt64)
    pure (.number x.abs)
  else
    let r ← modifyGet Random.draw
    pure (.number (if x > 0 then x * r else r))

/-- What `rnd` does with what it can see. -/
def Function.drawn (view : View) (args : List Value) : Eval Value := do
  let x ← match args with
    | [] => pure 0
    | [v] => ExceptT.mk (pure (view.heap.toNumber v))
    | _ => throw (wrongCount 0 1 args.length)
  draw x

namespace Eval

variable {α : Type}

def ofExcept (x : Except Error α) : Eval α :=
  ExceptT.mk (pure x)

def located (pos : Pos) (x : Eval α) : Eval α :=
  x.adapt (·.locatedAt pos)

/-- Gives errors of a plain result a position unless they have one. -/
def onPos (pos : Pos) (x : Except Error α) : Eval α :=
  located pos (ofExcept x)

end Eval

/-! ### Evaluation in an environment -/

namespace Env

def lookup (env : Env) (pos : Pos) (name : String) : Eval Value :=
  if env.literalNames then pure (.name name)
  else match env.scope.fetch name with
    | some v => pure v
    | none => throw ((Error.unknownIdentifier name).locatedAt pos)

/-- The container that a name holds, if it holds one. -/
def container? (env : Env) (name : String) : Option Value :=
  (env.scope.fetch name).filter Value.isContainer

mutual

def eval (env : Env) : Expr → Eval Value
  | .number _ x => pure (.number x)
  | .text _ s => pure (.text s)
  | .bool _ b => pure (.bool b)
  | .mark _ c => pure (.mark c)
  | .var pos name => env.lookup pos name
  | .select pos name first more =>
    match env.container? name with
    | some container => do
      let keys ← env.evalAll first
      let v ← Eval.onPos pos (env.heap.getElement container keys)
      env.fetchFrom pos name v more
    | none =>
      match env.functions[name]? with
      | none =>
        throw { code := .undefinedFunction, detail := "unknown function [" ++ name ++ "]",
                pos := some pos }
      | some f => do
        if !more.isEmpty then
          throw ((Error.illegalCall (name ++ " is not an array or map")).locatedAt pos)
        let args ← env.evalAll first
        Eval.located pos (f.run env.toView args)
  | .unary pos op e => do
    let v ← env.eval e
    Eval.onPos pos (op.apply v)
  | .binary _ .and l r => do
    let v ← env.eval l
    if v.isTruthy then env.eval r else pure v
  | .binary _ .or l r => do
    let v ← env.eval l
    if v.isTruthy then pure v else env.eval r
  | .binary pos op l r => do
    let v ← env.eval l
    let w ← env.eval r
    Eval.onPos pos (op.apply env.heap v w)
  | .list pos _ =>
    throw { code := .internal, detail := "LIST OUTSIDE OF ARGUMENTS", pos := some pos }

def evalAll (env : Env) : List Expr → Eval (List Value)
  | [] => pure []
  | e :: es => do
    let v ← env.eval e
    let vs ← env.evalAll es
    pure (v :: vs)

def fetchFrom (env : Env) (pos : Pos) (name : String) (v : Value) : List (List Expr) → Eval Value
  | [] => pure v
  | level :: more => do
    if !v.isContainer then throw ((Error.notSelectable name).locatedAt pos)
    let keys ← env.evalAll level
    let v ← Eval.onPos pos (env.heap.getElement v keys)
    env.fetchFrom pos name v more

end

def evalArgs (env : Env) : Option Expr → Eval (List Value)
  | none => pure []
  | some (.list _ items) => env.evalAll items
  | some e => do pure [← env.eval e]

def slotFrom (env : Env) (name : String) (container : Value) (level : List Expr) :
    List (List Expr) → Eval Slot
  | [] => do
    let keys ← env.evalAll level
    Eval.ofExcept (env.heap.locate .writing container keys)
  | following :: more => do
    let keys ← env.evalAll level
    let v ← Eval.ofExcept (env.heap.getElement container keys)
    if !v.isContainer then throw (Error.notSelectable name)
    env.slotFrom name v following more

def slot (env : Env) (name : String) (selector : Selector) : Eval Slot :=
  match env.scope.fetch name with
  | none => throw (Error.unknownIdentifier name)
  | some v =>
    if v.isContainer then
      match selector.levels with
      | [] => throw { code := .malformed, detail := "EXPECTED INDEX" }
      | first :: more => env.slotFrom name v first more
    else throw (Error.notSelectable name)

end Env

/-! ### The machine as an environment -/

namespace Action

variable {α β : Type}

theorem run_get (m : Machine) : (get : Action Machine).run m = (.ok m, m) := rfl

theorem run_modify (f : Machine → Machine) (m : Machine) :
    (modify f : Action Unit).run m = (.ok (), f m) := rfl

theorem run_mk (f : StateM Machine (Except Error α)) (m : Machine) :
    (ExceptT.mk f : Action α).run m = f m := rfl

theorem run_bind (x : Action α) (f : α → Action β) (m : Machine) :
    (x >>= f).run m =
      match x.run m with
      | (.ok a, m') => (f a).run m'
      | (.error e, m') => (.error e, m') := by
  rw [ExceptT.run_bind]
  simp only [bind, StateT.bind]
  cases h : x.run m with
  | mk r m' => cases r <;> rfl

theorem run_bind_eq_ok {x : Action α} {f : α → Action β} {m m' : Machine} {b : β}
    (h : (x >>= f).run m = (.ok b, m')) :
    ∃ a m₁, x.run m = (.ok a, m₁) ∧ (f a).run m₁ = (.ok b, m') := by
  rw [run_bind] at h
  cases hx : x.run m with
  | mk r m₁ =>
    rw [hx] at h
    cases r with
    | ok a => exact ⟨a, m₁, rfl, h⟩
    | error e => cases h

theorem run_located (pos : Pos) (x : Action α) (m : Machine) :
    (located pos x).run m = ((x.run m).1.mapError (·.locatedAt pos), (x.run m).2) :=
  rfl

theorem run_naming (literalNames : Bool) (x : Action α) (m : Machine) :
    (naming literalNames x).run m = ((x.run { m with literalNames := literalNames }).1,
      { (x.run { m with literalNames := literalNames }).2 with literalNames := false }) :=
  rfl

/-- Evaluates in the machine's environment. -/
def evaluate (x : Env → Eval α) : Action α :=
  ExceptT.mk fun m =>
    let (result, random) := (x m.env).run m.random
    (result, { m with random := random })

theorem run_evaluate (x : Env → Eval α) (m : Machine) : (evaluate x).run m =
    (((x m.env).run m.random).1, { m with random := ((x m.env).run m.random).2 }) :=
  rfl

theorem evaluate_pure (a : α) : evaluate (fun _ => pure a) = (pure a : Action α) :=
  rfl

theorem evaluate_throw (e : Error) : evaluate (fun _ => throw e) = (throw e : Action α) :=
  rfl

/-- What follows an evaluation and is one itself continues it: the environment is still the same. -/
theorem bind_eq_evaluate {x : Action α} {k : α → Action β} {y : Env → Eval α}
    {l : α → Env → Eval β} (hx : x = evaluate y) (hk : ∀ a, k a = evaluate (l a)) :
    x >>= k = evaluate fun env => y env >>= fun a => l a env := by
  subst hx
  obtain rfl : k = fun a => evaluate (l a) := funext hk
  apply ExceptT.ext
  funext m
  change (evaluate y >>= fun a => evaluate (l a)).run m = _
  rw [run_bind, run_evaluate]
  change _ = (((y m.env >>= fun a => l a m.env).run m.random).1,
    { m with random := ((y m.env >>= fun a => l a m.env).run m.random).2 })
  rw [ExceptT.run_bind]
  simp only [bind, StateT.bind]
  cases h : (y m.env).run m.random with
  | mk r random => cases r <;> rfl

theorem get_eq_evaluate {k : Machine → Action α} {x : Env → Eval α}
    (hk : ∀ m, ∃ y, k m = evaluate y ∧ y m.env = x m.env) : get >>= k = evaluate x := by
  apply ExceptT.ext
  funext m
  obtain ⟨y, hy, hx⟩ := hk m
  change (k m).run m = (evaluate x).run m
  rw [hy, run_evaluate, run_evaluate, hx]

theorem located_eq_evaluate {x : Action α} {x' : Env → Eval α} (pos : Pos) (hx : x = evaluate x') :
    located pos x = evaluate fun env => Eval.located pos (x' env) := by
  subst hx
  rfl

theorem lookup_eq (pos : Pos) (name : String) : lookup pos name = evaluate (·.lookup pos name) := by
  refine get_eq_evaluate fun m => ?_
  cases hliteral : m.literalNames with
  | true => exact ⟨_, (evaluate_pure _).symm, (if_pos hliteral).symm⟩
  | false =>
    have hlookup : m.env.lookup pos name = match m.scope.fetch name with
        | some v => pure v
        | none => throw ((Error.unknownIdentifier name).locatedAt pos) :=
      if_neg (Bool.eq_false_iff.mp hliteral)
    rw [hlookup]
    cases m.scope.fetch name with
    | some v => exact ⟨_, (evaluate_pure v).symm, rfl⟩
    | none => exact ⟨_, (evaluate_throw _).symm, rfl⟩

/-- A plain name is looked up, unless names stand for themselves. -/
theorem run_eval_var (pos : Pos) (name : String) {m : Machine} (hnames : m.literalNames = false) :
    (eval (.var pos name)).run m =
      (match m.scope.fetch name with
        | some v => .ok v
        | none => .error ((Error.unknownIdentifier name).locatedAt pos), m) := by
  change (lookup pos name).run m = _
  unfold lookup
  rw [run_bind, run_get]
  dsimp only
  rw [if_neg (Bool.eq_false_iff.mp hnames)]
  cases m.scope.fetch name with
  | some v => rfl
  | none => rfl

theorem element_eq (container : Value) (keys : List Value) :
    element container keys = evaluate fun env => Eval.ofExcept (env.heap.getElement container keys) :=
  rfl

theorem rnd_eq (args : List Value) :
    Function.rnd args = evaluate fun env => Function.drawn env.toView args := by
  have hdraw (x : Float) : Function.drawFor x = evaluate fun _ => Function.draw x := by
    unfold Function.drawFor Function.draw
    split <;> rfl
  rcases args with _ | ⟨v, _ | ⟨w, vs⟩⟩
  · exact hdraw 0
  · exact get_eq_evaluate fun m =>
      ⟨_, bind_eq_evaluate (y := fun _ => Eval.ofExcept (m.heap.toNumber v)) rfl hdraw, rfl⟩
  · exact bind_eq_evaluate rfl hdraw

theorem run_function {f : Function} {args : List Value} {y : View → Eval Value}
    (h : Function.call f.action args = evaluate fun env => y env.toView) (view : View) :
    f.run view args = y view := by
  unfold Function.run
  rw [h]
  rfl

theorem run_rnd (usage manual : String) (view : View) (args : List Value) :
    Function.run ⟨.builtin .rnd, usage, manual⟩ view args = Function.drawn view args :=
  run_function (f := ⟨.builtin .rnd, usage, manual⟩) (y := (Function.drawn · args)) (rnd_eq args) view

/-- A function that is called reads no more than it can see, and changes no more than the random
source. -/
theorem call_eq (f : Function) (args : List Value) :
    Function.call f.action args = evaluate fun env => f.run env.toView args := by
  obtain ⟨action, usage, manual⟩ := f
  cases action with
  | host run => rfl
  | builtin b =>
    cases b with
    | rnd =>
      simp only [run_rnd]
      exact rnd_eq args
    | _ => rfl

mutual

/-- An evaluation of the machine is one of its environment. -/
theorem eval_eq : ∀ e : Expr, eval e = evaluate (·.eval e)
  | .number .. => rfl
  | .text .. => rfl
  | .bool .. => rfl
  | .mark .. => rfl
  | .var pos name => lookup_eq pos name
  | .select pos name first more => by
    refine get_eq_evaluate fun m => ?_
    cases hcontainer : m.env.container? name with
    | some container =>
      have hm : (m.scope.fetch name).filter Value.isContainer = some container := hcontainer
      rw [Env.eval]
      simp only [hcontainer, hm]
      exact ⟨_, bind_eq_evaluate (evalAll_eq first) fun keys =>
        bind_eq_evaluate (located_eq_evaluate pos (element_eq container keys)) fun v =>
          fetchFrom_eq pos name v more, rfl⟩
    | none =>
      have hm : (m.scope.fetch name).filter Value.isContainer = none := hcontainer
      rw [Env.eval]
      simp only [hcontainer, hm]
      cases hf : m.functions[name]? with
      | none =>
        have hf' : m.env.functions[name]? = none := hf
        simp only [hf']
        exact ⟨_, (evaluate_throw _).symm, rfl⟩
      | some f =>
        have hf' : m.env.functions[name]? = some f := hf
        simp only [hf']
        split
        · exact ⟨_, (evaluate_throw _).symm, rfl⟩
        · exact ⟨_, bind_eq_evaluate (evalAll_eq first) fun args =>
            located_eq_evaluate pos (call_eq f args), rfl⟩
  | .unary pos op e => bind_eq_evaluate (eval_eq e) fun v => rfl
  | .binary pos op l r => by
    cases op with
    | and =>
      refine bind_eq_evaluate (eval_eq l)
        (l := fun v env => if v.isTruthy then env.eval r else pure v) fun v => ?_
      split
      · exact eval_eq r
      · rfl
    | or =>
      refine bind_eq_evaluate (eval_eq l)
        (l := fun v env => if v.isTruthy then pure v else env.eval r) fun v => ?_
      split
      · rfl
      · exact eval_eq r
    | _ => exact bind_eq_evaluate (eval_eq l) fun v => bind_eq_evaluate (eval_eq r) fun w => rfl
  | .list .. => rfl

theorem evalAll_eq : ∀ es : List Expr, evalAll es = evaluate (·.evalAll es)
  | [] => rfl
  | e :: es => bind_eq_evaluate (eval_eq e) fun _ => bind_eq_evaluate (evalAll_eq es) fun _ => rfl

theorem fetchFrom_eq (pos : Pos) (name : String) (v : Value) : ∀ more : List (List Expr),
    fetchFrom pos name v more = evaluate (·.fetchFrom pos name v more)
  | [] => rfl
  | level :: more => by
    rw [fetchFrom]
    simp only [Env.fetchFrom]
    split
    · rfl
    · exact bind_eq_evaluate (evalAll_eq level) fun keys =>
        bind_eq_evaluate (located_eq_evaluate pos (element_eq v keys)) fun w =>
          fetchFrom_eq pos name w more

end

theorem evalArgs_eq (args : Option Expr) : evalArgs args = evaluate (·.evalArgs args) := by
  have hone (e : Expr) : (do pure [← eval e] : Action (List Value)) =
      evaluate fun env => (do pure [← env.eval e]) := bind_eq_evaluate (eval_eq e) fun _ => rfl
  cases args with
  | none => rfl
  | some e =>
    cases e with
    | list pos items => exact evalAll_eq items
    | _ => exact hone _

theorem slotFrom_eq (name : String) (container : Value) (level : List Expr)
    (more : List (List Expr)) :
    slotFrom name container level more = evaluate (·.slotFrom name container level more) := by
  induction more generalizing container level with
  | nil => exact bind_eq_evaluate (evalAll_eq level) fun _ => rfl
  | cons following more ih =>
    refine bind_eq_evaluate (evalAll_eq level) fun keys => ?_
    refine bind_eq_evaluate (element_eq container keys) fun v => ?_
    cases v.isContainer with
    | true => exact ih v following
    | false => rfl

theorem slot_eq (name : String) (selector : Selector) :
    slot name selector = evaluate (·.slot name selector) := by
  refine get_eq_evaluate fun m => ?_
  have hslot : m.env.slot name selector = match m.scope.fetch name with
      | none => throw (Error.unknownIdentifier name)
      | some v =>
        if v.isContainer then
          match selector.levels with
          | [] => throw { code := .malformed, detail := "EXPECTED INDEX" }
          | first :: more => m.env.slotFrom name v first more
        else throw (Error.notSelectable name) := rfl
  rw [hslot]
  cases m.scope.fetch name with
  | none => exact ⟨_, (evaluate_throw _).symm, rfl⟩
  | some v =>
    dsimp only
    split
    · cases selector.levels with
      | nil => exact ⟨_, (evaluate_throw _).symm, rfl⟩
      | cons first more => exact ⟨_, slotFrom_eq name v first more, rfl⟩
    · exact ⟨_, (evaluate_throw _).symm, rfl⟩

end Action

end LineBasic
