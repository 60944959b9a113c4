import LineBasic.Machine.Session
import LineBasic.Proofs.Footprints

/-!
# Evaluation is quiet

Loops evaluate their bounds and guards again and again, and they rely on it that looking changes
nothing. Main statement: evaluating an expression leaves the whole machine as it is but for the random
source, also when it fails, and unless it calls a function of the clock or of the random source, it
gives the same value or the same error whenever it is repeated.
-/

namespace LineBasic

set_option autoImplicit false

namespace Eval

variable {α β : Type}

/-- An evaluation that gives the same whatever the clock shows and whatever the random source is, and
that draws nothing. -/
def Steady (x : Clock → Eval α) : Prop :=
  ∃ result, ∀ clock random, (x clock).run random = (result, random)

theorem Yields.of_onPos {pos : Pos} {x : Except Error α} {a : α} (h : (onPos pos x).Yields a) :
    x = .ok a := by
  obtain ⟨random, h⟩ := h
  change x.mapError _ = .ok a at h
  cases x with
  | ok b => exact h
  | error e => cases h

namespace Steady

theorem of_except (x : Except Error α) : Steady fun _ => ofExcept x :=
  ⟨x, fun _ _ => rfl⟩

theorem of_pure (a : α) : Steady fun _ => pure a :=
  of_except (.ok a)

theorem of_throw (e : Error) : Steady fun _ => (throw e : Eval α) :=
  of_except (.error e)

theorem onPos (pos : Pos) (x : Except Error α) : Steady fun _ => Eval.onPos pos x :=
  of_except _

theorem located {x : Clock → Eval α} (pos : Pos) (h : Steady x) :
    Steady fun clock => (x clock).located pos := by
  obtain ⟨result, hresult⟩ := h
  refine ⟨result.mapError (·.locatedAt pos), fun clock random => ?_⟩
  change (((x clock).run random).1.mapError _, ((x clock).run random).2) = _
  rw [hresult]

theorem of_bind {x : Clock → Eval α} {f : Clock → α → Eval β} (now : Clock) (hx : Steady x)
    (hf : ∀ a, (x now).Yields a → Steady fun clock => f clock a) :
    Steady fun clock => x clock >>= f clock := by
  obtain ⟨result, hresult⟩ := hx
  cases result with
  | ok a =>
    obtain ⟨result, hf⟩ := hf a (.of_run (hresult now (Random.ofSeed 0)))
    refine ⟨result, fun clock random => ?_⟩
    rw [run_bind, hresult]
    exact hf clock random
  | error e =>
    refine ⟨.error e, fun clock random => ?_⟩
    rw [run_bind, hresult]

end Steady

end Eval

/-! ### Functions -/

/-- A function that looks neither at the clock nor at the random source. -/
def Function.Steady (f : Function) : Prop :=
  ∀ (view : View) (args : List Value), Eval.Steady fun clock => f.run { view with clock := clock } args

/-- Whether a function may look at the clock or at the random source. -/
def FunctionAction.isTimed : FunctionAction → Bool
  | .builtin .rnd | .builtin .time | .builtin .timeOfDay | .builtin .date | .host _ => true
  | _ => false

namespace Function

theorem steady_of_isTimed {f : Function} (hf : f.action.isTimed = false) : f.Steady := by
  intro view args
  obtain ⟨action, usage, manual⟩ := f
  refine ⟨((Function.run ⟨action, usage, manual⟩ view args).run (Random.ofSeed 0)).1, ?_⟩
  cases action with
  | host run => cases hf
  | builtin b =>
    cases b with
    | rnd | time | timeOfDay | date => cases hf
    | _ => exact fun _ _ => rfl

theorem builtins_steady : ∀ f ∈ builtins, f.1 ∉ timedNames → f.2.Steady := by
  have huntimed : ∀ f ∈ builtins, f.1 ∉ timedNames → f.2.action.isTimed = false := by
    decide +kernel
  exact fun f hf hname => steady_of_isTimed (huntimed f hf hname)

end Function

/-- The functions of the machine are the built-in ones. -/
def Machine.BuiltinFunctions (m : Machine) : Prop :=
  ∀ name f, m.functions[name]? = some f → (name, f) ∈ Function.builtins

namespace Env

/-! ### Calls -/

mutual

/-- The evaluation of an expression calls one of the functions named. A list stands for arguments,
which are evaluated in turn. -/
inductive Calls (env : Env) (names : List String) : Expr → Prop where
  | operand {pos : Pos} {op : UnaryOp} {e : Expr} (h : Calls env names e) :
      Calls env names (.unary pos op e)
  | left {pos : Pos} {op : BinaryOp} {l r : Expr} (h : Calls env names l) :
      Calls env names (.binary pos op l r)
  | right {pos : Pos} {op : BinaryOp} {l r : Expr} {v : Value} (hl : (env.eval l).Yields v)
      (hop : op.goesOn v = true) (h : Calls env names r) : Calls env names (.binary pos op l r)
  | call {pos : Pos} {name : String} {args : List Expr} {f : Function} {vs : List Value}
      (hname : env.container? name = none) (hf : env.functions[name]? = some f)
      (hargs : (env.evalAll args).Yields vs) (h : name ∈ names) :
      Calls env names (.select pos name args [])
  | argument {pos : Pos} {name : String} {args : List Expr} {f : Function}
      (hname : env.container? name = none) (hf : env.functions[name]? = some f)
      (h : CallsAny env names args) : Calls env names (.select pos name args [])
  | keys {pos : Pos} {name : String} {container : Value} {first : List Expr}
      {more : List (List Expr)} (hname : env.container? name = some container)
      (h : CallsOnWay env names container (first :: more)) :
      Calls env names (.select pos name first more)
  | items {pos : Pos} {items : List Expr} (h : CallsAny env names items) :
      Calls env names (.list pos items)

/-- The evaluation of several expressions calls one of the functions. -/
inductive CallsAny (env : Env) (names : List String) : List Expr → Prop where
  | head {e : Expr} {es : List Expr} (h : Calls env names e) : CallsAny env names (e :: es)
  | tail {e : Expr} {es : List Expr} {v : Value} (he : (env.eval e).Yields v)
      (h : CallsAny env names es) : CallsAny env names (e :: es)

/-- The keys on the way from a container through the levels of a selector call one of the functions. -/
inductive CallsOnWay (env : Env) (names : List String) : Value → List (List Expr) → Prop where
  | here {container : Value} {level : List Expr} {more : List (List Expr)}
      (h : CallsAny env names level) : CallsOnWay env names container (level :: more)
  | later {container v : Value} {level : List Expr} {more : List (List Expr)} {keys : List Value}
      (hkeys : (env.evalAll level).Yields keys) (hv : env.heap.getElement container keys = .ok v)
      (hcontainer : v.isContainer = true) (h : CallsOnWay env names v more) :
      CallsOnWay env names container (level :: more)

end

/-- The environment at another time. -/
def clocked (env : Env) (clock : Clock) : Env :=
  { env with clock := clock }

/-- Of the functions only those named look at the clock or at the random source. -/
def SteadyBut (env : Env) (names : List String) : Prop :=
  ∀ name f, env.functions[name]? = some f → name ∉ names → f.Steady

section

variable {env : Env} {names : List String}

mutual

theorem steady_eval (hf : env.SteadyBut names) (e : Expr) (he : ¬env.Calls names e) :
    Eval.Steady fun clock => (env.clocked clock).eval e := by
  match e with
  | .number pos x => exact .of_pure _
  | .text pos s => exact .of_pure _
  | .bool pos b => exact .of_pure _
  | .mark pos c => exact .of_pure _
  | .list pos items => exact .of_throw _
  | .var pos name =>
    change Eval.Steady fun _ => env.lookup pos name
    unfold Env.lookup
    split
    · exact .of_pure _
    · split
      · exact .of_pure _
      · exact .of_throw _
  | .unary pos op e =>
    exact .of_bind env.clock (steady_eval hf e fun h => he (.operand h)) fun v _ => .of_except _
  | .binary pos op l r =>
    have hl := steady_eval hf l fun h => he (.left h)
    have hr {v : Value} (hv : (env.eval l).Yields v) (hop : op.goesOn v = true) :=
      steady_eval hf r fun h => he (.right hv hop h)
    cases op with
    | and =>
      refine .of_bind env.clock hl fun v hv => ?_
      split
      · rename_i htruthy
        exact hr hv htruthy
      · exact .of_pure _
    | or =>
      refine .of_bind env.clock hl fun v hv => ?_
      split
      · exact .of_pure _
      · rename_i hfalsy
        exact hr hv (by simpa [BinaryOp.goesOn] using hfalsy)
    | _ =>
      exact .of_bind env.clock hl fun v hv => .of_bind env.clock (hr hv rfl) fun w _ =>
        .onPos pos (BinaryOp.apply env.heap _ v w)
  | .select pos name first more =>
    cases hname : env.container? name with
    | some container =>
      have hname' (clock : Clock) : (env.clocked clock).container? name = some container := hname
      simp only [Env.eval, hname']
      have hkeys := steady_evalAll hf first fun h => he (.keys hname (.here h))
      refine .of_bind env.clock hkeys fun keys hyields => ?_
      refine .of_bind env.clock (.onPos pos (env.heap.getElement container keys)) fun v hv => ?_
      refine steady_fetchFrom hf pos name v more fun hcontainer h => ?_
      exact he (.keys hname (.later hyields (Eval.Yields.of_onPos hv) hcontainer h))
    | none =>
      have hname' (clock : Clock) : (env.clocked clock).container? name = none := hname
      have hfunctions (clock : Clock) : (env.clocked clock).functions = env.functions := rfl
      simp only [Env.eval, hname', hfunctions]
      cases hfunction : env.functions[name]? with
      | none => exact .of_throw _
      | some f =>
        cases more with
        | cons level more => exact .of_throw _
        | nil =>
          have hargs := steady_evalAll hf first fun h => he (.argument hname hfunction h)
          refine .of_bind env.clock hargs fun vs hvs => .located pos ?_
          exact hf name f hfunction (fun hmem => he (.call hname hfunction hvs hmem)) env.toView vs

theorem steady_evalAll (hf : env.SteadyBut names) (es : List Expr) (hes : ¬env.CallsAny names es) :
    Eval.Steady fun clock => (env.clocked clock).evalAll es := by
  match es with
  | [] => exact .of_pure _
  | e :: es =>
    refine .of_bind env.clock (steady_eval hf e fun h => hes (.head h)) fun v hv => ?_
    exact .of_bind env.clock (steady_evalAll hf es fun h => hes (.tail hv h)) fun vs _ => .of_pure _

theorem steady_fetchFrom (hf : env.SteadyBut names) (pos : Pos) (name : String) (v : Value)
    (levels : List (List Expr)) (hlevels : v.isContainer = true → ¬env.CallsOnWay names v levels) :
    Eval.Steady fun clock => (env.clocked clock).fetchFrom pos name v levels := by
  match levels with
  | [] => exact .of_pure _
  | level :: more =>
    cases hcontainer : v.isContainer with
    | false =>
      simp only [Env.fetchFrom, hcontainer]
      exact .of_throw _
    | true =>
      simp only [Env.fetchFrom, hcontainer]
      have hkeys := steady_evalAll hf level fun h => hlevels hcontainer (.here h)
      refine .of_bind env.clock hkeys fun keys hyields => ?_
      refine .of_bind env.clock (.onPos pos (env.heap.getElement v keys)) fun w hw => ?_
      refine steady_fetchFrom hf pos name w more fun hnext h => ?_
      exact hlevels hcontainer (.later hyields (Eval.Yields.of_onPos hw) hnext h)

end

theorem steady_evalArgs (hf : env.SteadyBut names) (e : Expr) (he : ¬env.Calls names e) :
    Eval.Steady fun clock => (env.clocked clock).evalArgs (some e) := by
  cases e with
  | list pos items => exact steady_evalAll hf items fun h => he (.items h)
  | _ => exact .of_bind env.clock (steady_eval hf _ he) fun v _ => .of_pure _

end

end Env

/-! ### Machines -/

namespace Machine

theorem BuiltinFunctions.steadyBut {m : Machine} (hm : m.BuiltinFunctions) :
    m.env.SteadyBut timedNames :=
  fun name f hf => Function.builtins_steady (name, f) (hm name f hf)

theorem BuiltinFunctions.define {m : Machine} {fs : List (String × Function)}
    (hfs : ∀ f ∈ fs, (Text.fold f.1, f.2) ∈ Function.builtins) (h : m.BuiltinFunctions) :
    (fs.foldl (fun m f => m.defineFunction f.1 f.2) m).BuiltinFunctions := by
  induction fs generalizing m with
  | nil => exact h
  | cons f fs ih =>
    obtain ⟨hf, hfs⟩ := List.forall_mem_cons.mp hfs
    refine ih hfs fun name g hg => ?_
    change (m.functions.insert (Text.fold f.1) f.2)[name]? = some g at hg
    rw [Std.TreeMap.getElem?_insert] at hg
    split at hg
    · rename_i hname
      obtain rfl := Std.LawfulEqCmp.eq_of_compare hname
      cases hg
      exact hf
    · exact h name g hg

theorem builtinFunctions_new (config : Config) (random : Random) :
    (new config random).BuiltinFunctions := by
  have hfold : ∀ name ∈ Function.builtins.map Prod.fst, Text.fold name = name := by decide +kernel
  have hcommands (cs : List (String × Command)) (m : Machine) (hm : m.BuiltinFunctions) :
      (cs.foldl (fun m c => m.defineCommand c.1 c.2) m).BuiltinFunctions := by
    induction cs generalizing m with
    | nil => exact hm
    | cons c cs ih => exact ih _ hm
  refine .define (fun f hf => ?_) (hcommands _ _ fun name f hf => ?_)
  · rwa [hfold f.1 (List.mem_map_of_mem hf)]
  · rw [Std.TreeMap.getElem?_emptyc] at hf
    cases hf

end Machine

namespace Action

variable {α : Type}

/-- Running changes the random source and nothing else. -/
def DrawsOnly (x : Action α) (m : Machine) : Prop :=
  ∃ result random, x.run m = (result, { m with random := random })

/-- A second run gives what the first one gave and changes nothing, whatever the clock shows by then
and whatever the random source is. -/
def Repeats (x : Action α) (m : Machine) : Prop :=
  ∀ clock random,
    let later := { (x.run m).2 with clock := clock, random := random }
    x.run later = ((x.run m).1, later)

theorem drawsOnly_evaluate (x : Env → Eval α) (m : Machine) : (evaluate x).DrawsOnly m :=
  ⟨_, _, rfl⟩

/-- The machine is handed through every form of expression and through every function, and comes out
as it went in but for the random source. -/
theorem drawsOnly_eval (e : Expr) (m : Machine) : (eval e).DrawsOnly m := by
  rw [eval_eq]
  exact drawsOnly_evaluate _ m

theorem drawsOnly_evalArgs (args : Option Expr) (m : Machine) : (evalArgs args).DrawsOnly m := by
  rw [evalArgs_eq]
  exact drawsOnly_evaluate _ m

theorem repeats_evaluate {x : Env → Eval α} {m : Machine}
    (h : Eval.Steady fun clock => x (m.env.clocked clock)) : (evaluate x).Repeats m := by
  obtain ⟨result, hresult⟩ := h
  have hrun (clock : Clock) (random : Random) :
      (evaluate x).run { m with clock := clock, random := random } =
        (result, { m with clock := clock, random := random }) := by
    have hnow := hresult clock random
    change (((x (m.env.clocked clock)).run random).1, { m with
      clock := clock, random := ((x (m.env.clocked clock)).run random).2 }) = _
    rw [hnow]
  intro clock random
  have hfirst := hrun m.clock m.random
  change (evaluate x).run m = (result, m) at hfirst
  rw [hfirst]
  exact hrun clock random

end Action

/-- Evaluating an expression or a command's arguments changes nothing of the machine but the random
source, whether plain names are looked up or stand for themselves, and also if it fails. It can be
repeated with the same outcome if no function of the clock or of the random source is called. -/
theorem evaluation_quiet {m : Machine} (hm : m.BuiltinFunctions) (e : Expr) :
    ((Action.eval e).DrawsOnly m ∧ (Action.evalArgs (some e)).DrawsOnly m) ∧
      (¬m.env.Calls timedNames e →
        (Action.eval e).Repeats m ∧ (Action.evalArgs (some e)).Repeats m) := by
  have hsteady := hm.steadyBut
  refine ⟨⟨Action.drawsOnly_eval e m, Action.drawsOnly_evalArgs _ m⟩, fun hcalls => ⟨?_, ?_⟩⟩
  · rw [Action.eval_eq]
    exact Action.repeats_evaluate (Env.steady_eval hsteady e hcalls)
  · rw [Action.evalArgs_eq]
    exact Action.repeats_evaluate (Env.steady_evalArgs hsteady e hcalls)

/-- The call on the right of `0 and rnd(1)` is never made. -/
theorem evaluation_quiet_skipped_call :
    let m := Machine.new {} (Random.ofSeed 1)
    let e := Expr.binary ⟨1, 3⟩ .and (.number ⟨1, 1⟩ 0) (.select ⟨1, 7⟩ "rnd" [.number ⟨1, 11⟩ 1] [])
    m.BuiltinFunctions ∧ ¬m.env.Calls timedNames e ∧
      (Action.eval e).DrawsOnly m ∧ (Action.eval e).Repeats m ∧
      ((Action.eval e).run m).1 = .ok (.number 0) := by
  intro m e
  have hm := Machine.builtinFunctions_new {} (Random.ofSeed 1)
  have hcalls : ¬m.env.Calls timedNames e := by
    intro h
    simp only [e] at h
    cases h with
    | left h => cases h
    | right hl hop h =>
      obtain ⟨random, hl⟩ := hl
      obtain rfl := Except.ok.inj hl
      cases hop
  have hquiet := evaluation_quiet hm e
  exact ⟨hm, hcalls, hquiet.1.1, (hquiet.2 hcalls).1, rfl⟩

end LineBasic
