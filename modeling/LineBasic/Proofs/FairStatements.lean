import LineBasic.Proofs.Effects
import LineBasic.Proofs.OrdinaryErrors
import LineBasic.Proofs.SoundReading

/-!
# Statements without failures of the interpreter

A statement of a program that was read can fail over values, names and labels, over a full stack or
over missing data. It cannot fail over the interpreter: its expressions have no lists outside of
arguments, the elements that it assigns to have indices, and a machine that runs it has a program to
return to.
-/

namespace LineBasic

set_option autoImplicit false

/-- A machine with built-in commands only and with functions that fail over nothing but their
arguments. -/
structure Machine.Equipped (m : Machine) : Prop where
  functions : ∀ (name : String) (f : Function), m.functions[name]? = some f → f.Fair
  commands : ∀ (name : String) (c : Command), m.commands[name]? = some c →
    ∃ b, c.action = .builtin b

/-- Such a machine that has a program to run. -/
structure Machine.Able (m : Machine) : Prop extends m.Equipped where
  code : m.code.isSome

theorem Selector.listless_of_flatten {selector : Selector}
    (h : ∀ e ∈ selector.levels.flatten, e.Listless) : selector.Listless :=
  fun level hlevel e he => h e (List.mem_flatten.mpr ⟨level, hlevel, he⟩)

namespace Action

variable {α β : Type}

/-- An action that fails over nothing but the program. -/
def Fair (x : Action α) : Prop :=
  ∀ m, m.Able → LineBasic.Fair (x.run m).1

theorem Within.able {x : Action α} (hx : Within .inner x) {m : Machine} (hm : m.Able) :
    (x.run m).2.Able := by
  obtain ⟨g, hfixed, hg⟩ := hx
  have hfixtures : (g m.sight).2.toFixtures = m.sight.toFixtures := hfixed m.sight
  rw [hg]
  refine ⟨⟨fun name f hf => hm.functions name f ?_, fun name c hc => hm.commands name c ?_⟩, hm.code⟩
  · rw [← hf]
    exact congrArg (·.functions[name]?) hfixtures.symm
  · rw [← hc]
    exact congrArg (·.commands[name]?) hfixtures.symm

namespace Fair

theorem of_pure (a : α) : Fair (pure a) :=
  fun _ _ => .of_ok a

theorem of_throw {e : Error} (h : e.Ordinary) : Fair (throw e : Action α) :=
  fun _ _ => .of_error h

theorem of_code {e : Error} (h : e.code ≠ .internal) (h' : e.code ≠ .malformed) :
    Fair (throw e : Action α) :=
  of_throw (Error.ordinary_of_code h h')

theorem of_located_code {e : Error} {pos : Pos} (h : e.code ≠ .internal) (h' : e.code ≠ .malformed) :
    Fair (throw (e.locatedAt pos) : Action α) :=
  of_throw ((Error.ordinary_of_code h h').locatedAt pos)

theorem of_modify (f : Machine → Machine) : Fair (modify f : Action Unit) :=
  fun _ _ => .of_ok ()

theorem of_except {x : Except Error α} (h : LineBasic.Fair x) : Fair (ofExcept x) :=
  fun _ _ => h

theorem of_get {k : Machine → Action α} (hk : ∀ m, m.Able → Fair (k m)) : Fair (get >>= k) :=
  fun m hm => hk m hm m hm

theorem of_bind {x : Action α} {f : α → Action β} (hwithin : Within .inner x) (hx : Fair x)
    (hf : ∀ a, Fair (f a)) : Fair (x >>= f) := by
  intro m hm
  have hable := hwithin.able hm
  have hfair := hx m hm
  rw [run_bind]
  revert hable hfair
  rcases x.run m with ⟨r, n⟩
  intro hable hfair
  cases r with
  | error e => exact .of_error (hfair e rfl)
  | ok a => exact hf a n hable

theorem then_modify {x : Action α} (hx : Fair x) (f : α → Machine → Machine) :
    Fair (x >>= fun a => modify (f a)) := by
  intro m hm
  have hfair := hx m hm
  rw [run_bind]
  revert hfair
  rcases x.run m with ⟨r, n⟩
  intro hfair
  cases r with
  | error e => exact .of_error (hfair e rfl)
  | ok a => exact .of_ok ()

theorem of_except_bind {x : Except Error α} (hx : LineBasic.Fair x) {f : α → Action β}
    (hf : ∀ a, Fair (f a)) : Fair (ofExcept x >>= f) :=
  of_bind (.of_ofExcept x) (of_except hx) hf

theorem located {x : Action α} (hx : Fair x) (pos : Pos) : Fair (located pos x) := by
  intro m hm
  rw [run_located]
  exact (hx m hm).located pos

theorem of_ite {c : Prop} [Decidable c] {x y : Action α} (hx : Fair x) (hy : Fair y) :
    Fair (if c then x else y) := by
  split
  · exact hx
  · exact hy

theorem naming {x : Action α} (hx : Fair x) (literalNames : Bool) : Fair (naming literalNames x) := by
  intro m hm
  rw [run_naming]
  exact hx { m with literalNames := literalNames } ⟨⟨hm.functions, hm.commands⟩, hm.code⟩

end Fair

/-! ### Evaluation -/

theorem fair_evaluate {x : Env → Eval α}
    (h : ∀ env : Env, (∀ (name : String) f, env.functions[name]? = some f → f.Fair) →
      (x env).Fair) : Fair (evaluate x) :=
  fun m hm => h m.env hm.functions m.random

theorem fair_eval {e : Expr} (h : e.Listless) : Fair (eval e) := by
  rw [eval_eq]
  exact fair_evaluate fun _ hfair => Env.fair_eval hfair h

theorem fair_evalAll {es : List Expr} (h : ∀ e ∈ es, e.Listless) : Fair (evalAll es) := by
  rw [evalAll_eq]
  exact fair_evaluate fun _ hfair => Env.fair_evalAll fun e he => Env.fair_eval hfair (h e he)

theorem fair_evalArgs {args : Option Expr} (h : ∀ e ∈ Expr.arguments args, e.Listless) :
    Fair (evalArgs args) := by
  rw [evalArgs_eq]
  exact fair_evaluate fun _ hfair => Env.fair_evalArgs hfair h

theorem fair_evalNumber {e : Expr} (h : e.Listless) : Fair (evalNumber e) :=
  .of_bind (within_eval e).inner (fair_eval h) fun v =>
    .of_get fun m _ => .of_except (m.heap.fair_toNumber v)

theorem fair_storeElement (name : String) {selector : Selector} (h : selector.Listless)
    (hindexed : selector.Indexed) (v : Value) : Fair (storeElement name selector v) := by
  have hslot : Fair (slot name selector) := by
    rw [slot_eq]
    exact fair_evaluate fun _ hfair => Env.fair_slot hfair name h hindexed
  exact hslot.then_modify _

theorem fair_guard {g : Option Guard} (h : ∀ e ∈ (g.map Guard.condition).toList, e.Listless) :
    Fair (guard g) := by
  rcases g with _ | ⟨e⟩ | ⟨e⟩
  · exact .of_pure true
  · exact .of_bind (within_eval e).inner (fair_eval (h e List.mem_cons_self)) fun _ => .of_pure _
  · exact .of_bind (within_eval e).inner (fair_eval (h e List.mem_cons_self)) fun _ => .of_pure _

theorem fair_readAll {targets : List Target}
    (h : ∀ e ∈ targets.flatMap Target.exprs, e.Listless)
    (hindexed : ∀ selector ∈ targets.filterMap Target.selector?, selector.Indexed) :
    Fair (readAll targets) := by
  induction targets with
  | nil => exact .of_pure ()
  | cons target targets ih =>
    rw [List.flatMap_cons] at h
    obtain ⟨htarget, htargets⟩ := List.forall_mem_append.mp h
    have hmore : ∀ selector ∈ targets.filterMap Target.selector?, selector.Indexed :=
      fun selector hselector => hindexed selector <| by
        obtain ⟨t, ht, hsome⟩ := List.mem_filterMap.mp hselector
        exact List.mem_filterMap.mpr ⟨t, List.mem_cons_of_mem _ ht, hsome⟩
    have hthen := ih htargets hmore
    refine .of_get fun m _ => .of_except_bind m.data.fair_read fun r => ?_
    refine .of_bind (.of_modify (fun s => { s with data := r.2 }) (fun _ => rfl) fun _ => rfl)
      (.of_modify _) fun _ => ?_
    cases target with
    | var pos name => exact .of_bind (within_store name r.1).inner (.of_modify _) fun _ => hthen
    | element pos name selector =>
      have hstore := fair_storeElement name (Selector.listless_of_flatten htarget)
        (hindexed selector List.mem_cons_self) r.1
      exact .of_bind (.of_located pos (within_storeElement name selector r.1).inner)
        (hstore.located pos) fun _ => hthen

/-! ### Jumps -/

theorem fair_labelFrame (name : String) : Fair (labelFrame name) := by
  refine .of_get fun m _ => ?_
  split
  · exact .of_pure _
  · exact .of_code nofun nofun

theorem fair_target {e : Expr} (h : e.Listless) : Fair (target e) := by
  have hlabel : Fair (labelOf e) := by
    refine .of_get fun m _ => ?_
    split
    · exact .of_pure _
    · refine .of_bind (within_eval e).inner (fair_eval h) fun v => ?_
      split
      · exact .of_pure _
      · exact .of_pure _
      · exact .of_pure _
      · exact .of_located_code nofun nofun
  exact .of_bind (within_labelOf e).inner hlabel fun name => (fair_labelFrame name).located e.pos

theorem fair_choose {index : Expr} (h : index.Listless) (labels : List String) :
    Fair (choose index labels) := by
  refine .of_bind (within_evalNumber index).inner (fair_evalNumber h) fun x => ?_
  dsimp only
  split
  · exact fair_labelFrame _
  · exact .of_located_code nofun nofun

/-- Whoever runs a statement has a program to return to. -/
theorem fair_call (frame : Frame) : Fair (call frame) := by
  refine .of_get fun m hm => ?_
  split
  · rename_i hcode
    have hable := hm.code
    rw [hcode] at hable
    cases hable
  · split
    · rename_i e hfull
      unfold BoundedStack.overflow? at hfull
      split at hfull
      · cases hfull
        exact .of_code nofun nofun
      · cases hfull
    · exact (Fair.of_modify _).then_modify _

theorem fair_goBack : Fair goBack := by
  refine .of_get fun m _ => ?_
  split
  · exact (Fair.of_modify _).then_modify _
  · exact .of_modify _

theorem fair_advanceLoop (pos : Pos) {header : ForHeader Address}
    (h : ∀ e ∈ header.exprs, e.Listless) : Fair (advanceLoop pos header) := by
  have hcounter : Fair (counter pos header.var) := by
    refine .of_get fun m _ => ?_
    split
    · exact .of_pure _
    · exact .of_located_code nofun nofun
    · exact .of_located_code nofun nofun
  have hstride : Fair (stride header.step) := by
    cases hstep : header.step with
    | none => exact .of_pure _
    | some e =>
      apply fair_evalNumber (h e _)
      rw [ForHeader.exprs, hstep]
      exact List.mem_cons_of_mem _ (List.mem_cons_of_mem _ List.mem_cons_self)
  have hlimit : header.limit.Listless := h _ (List.mem_cons_of_mem _ List.mem_cons_self)
  have hpass : Fair (anotherPass pos header.var header.limit header.step) :=
    .of_bind (within_counter pos header.var).inner hcounter fun current =>
      .of_bind (within_stride header.step).inner hstride fun step =>
        .of_bind (within_store _ _).inner (.of_modify _) fun _ =>
          .of_bind (within_evalNumber header.limit).inner (fair_evalNumber hlimit) fun limit =>
            .of_get fun _ _ => .of_pure _
  rw [advanceLoop_eq]
  exact .of_bind (within_anotherPass _ _ _ _).inner hpass fun again =>
    .of_ite (.of_modify _) (.of_pure ())

/-! ### Commands -/

theorem fair_byteOf (x : Float) : LineBasic.Fair (Command.byteOf x) := by
  unfold Command.byteOf
  split
  · exact .of_ok _
  · exact .illegalCall _

theorem fair_pauseNanos (seconds : Float) : LineBasic.Fair (Command.pauseNanos seconds) := by
  unfold Command.pauseNanos
  split
  · exact .illegalCall _
  · exact .of_ok _

theorem fair_fileName (h : Heap) (args : List Value) : LineBasic.Fair (Command.fileName h args) := by
  unfold Command.fileName
  split
  · split
    · exact .typeMismatch _
    · exact .of_ok _
  · exact .typeMismatch _
  · exact .illegalCall _

theorem fair_startLabel (h : Heap) (args : List Value) :
    LineBasic.Fair (Command.startLabel h args) := by
  unfold Command.startLabel
  split
  · exact .of_ok _
  · exact .of_ok _
  · exact .of_ok _
  · exact .typeMismatch _

theorem fair_lineNumber (v : Value) : Fair (lineNumber v) :=
  .of_get fun m _ => .of_except (m.heap.fair_toIndex v)

theorem fair_help (args : List Value) : Fair (help args) := by
  unfold help
  split
  · exact .of_modify _
  · exact .of_modify _
  · exact .of_modify _
  · exact .of_get fun _ _ => .of_code nofun nofun

theorem fair_list (args : List Value) : Fair (list args) := by
  unfold list
  split
  · exact .of_modify _
  · exact (fair_lineNumber _).then_modify _
  · exact .of_bind (within_lineNumber _).inner (fair_lineNumber _) fun first =>
      (fair_lineNumber _).then_modify _
  · exact .of_code nofun nofun

theorem fair_listTo (args : List Value) : Fair (listTo args) := by
  unfold listTo
  split
  · exact .of_modify _
  · exact (fair_lineNumber _).then_modify _
  · exact .of_code nofun nofun

theorem fair_poke (args : List Value) : Fair (poke args) := by
  unfold poke
  split
  · rename_i address value
    refine .of_get fun m _ => .of_except_bind (m.heap.fair_toIndex address) fun a => ?_
    refine .of_get fun m _ => .of_except_bind (m.heap.fair_toNumber value) fun x => ?_
    exact (Fair.of_except (fair_byteOf x)).then_modify _
  · exact .of_code nofun nofun

theorem fair_sleep (args : List Value) : Fair (sleep args) := by
  unfold sleep
  split
  · rename_i v
    refine .of_get fun m _ => .of_except_bind (m.heap.fair_toNumber v) fun seconds => ?_
    exact (Fair.of_except (fair_pauseNanos seconds)).then_modify _
  · exact .of_code nofun nofun

theorem fair_report (args : List Value) (report : String → Event) :
    Fair (do
      let name ← ofExcept (Command.fileName (← get).heap args)
      modify (·.pushEvent (report name)) : Action Unit) :=
  .of_get fun m _ => (Fair.of_except (fair_fileName m.heap args)).then_modify _

theorem fair_compile (m : Machine) (source : String) (parent : Option Frame) :
    LineBasic.Fair (m.compile source parent).1 := by
  unfold Machine.compile Program.compile
  cases hparse : parse source with
  | error e => exact .of_error (ordinary_of_parse hparse)
  | ok code => exact .of_ok _

theorem fair_restart (label : Option String) : Fair (restart label) := by
  have hread : Fair (ExceptT.mk Machine.compileListing) := fun _ _ => fair_compile _ _ none
  exact hread.then_modify _

theorem fair_resume : Fair resume := by
  refine .of_get fun m _ => ?_
  split
  · exact .of_modify _
  · exact .of_code nofun nofun

theorem fair_builtin (args : List Value) (b : Builtin) : Fair (builtin args b) := by
  cases b with
  | sleep => exact fair_sleep args
  | help => exact fair_help args
  | list => exact fair_list args
  | listTo => exact fair_listTo args
  | run =>
    exact .of_get fun m _ => .of_except_bind (fair_startLabel m.heap args) fun label =>
      fair_restart label
  | cont => exact fair_resume
  | poke => exact fair_poke args
  | load => exact fair_report args .load
  | save => exact fair_report args .save
  | _ => exact .of_modify _

theorem fair_command (pos : Pos) (name : String) {args : Option Expr}
    (h : ∀ e ∈ Expr.arguments args, e.Listless) (literalNames : Bool) :
    Fair (command pos name args literalNames) := by
  refine .of_get fun m hm => ?_
  split
  · exact .of_code nofun nofun
  · rename_i c hc
    obtain ⟨b, hb⟩ := hm.commands name c hc
    refine .of_bind (within_namedArgs args literalNames).inner
      ((fair_evalArgs h).naming literalNames) fun args => ?_
    rw [hb]
    exact (fair_builtin args b).located pos

/-! ### Statements -/

/-- A statement of a program that was read fails over nothing but the program. -/
theorem fair_exec {s : Stmt Address} (h : s.Sound) : Fair (exec s) := by
  have hdone : Fair (pure ()) := .of_pure ()
  obtain ⟨hlistless, -, hindexed⟩ := h
  induction s with
  | command pos name args literal => exact fair_command pos name hlistless literal
  | assign pos name e =>
    exact .of_bind (within_eval e).inner (fair_eval (hlistless e List.mem_cons_self)) fun v =>
      .of_modify _
  | assignElement pos name selector e =>
    obtain ⟨he, hselector⟩ := List.forall_mem_cons.mp hlistless
    exact .of_bind (within_eval e).inner (fair_eval he) fun v =>
      fair_storeElement name (Selector.listless_of_flatten hselector)
        (hindexed selector List.mem_cons_self) v
  | dim pos name sizes =>
    refine .of_bind (within_evalAll sizes).inner (fair_evalAll hlistless) fun sizes => ?_
    exact .of_get fun m _ => (Fair.of_except (m.heap.fair_dim sizes)).then_modify _
  | map pos name => exact .of_modify _
  | when pos condition taken ih =>
    obtain ⟨hcondition, htaken⟩ := List.forall_mem_cons.mp hlistless
    exact .of_bind (within_eval condition).inner (fair_eval hcondition) fun v =>
      .of_ite (ih htaken hindexed) hdone
  | choose pos condition taken otherwise ih ih' =>
    obtain ⟨hcondition, hbranches⟩ := List.forall_mem_cons.mp hlistless
    obtain ⟨htaken, hotherwise⟩ := List.forall_mem_append.mp hbranches
    obtain ⟨hindexed₁, hindexed₂⟩ := List.forall_mem_append.mp hindexed
    exact .of_bind (within_eval condition).inner (fair_eval hcondition) fun v =>
      .of_ite (ih htaken hindexed₁) (ih' hotherwise hindexed₂)
  | goto pos e => exact (fair_target (hlistless e List.mem_cons_self)).then_modify _
  | gosub pos e =>
    exact .of_bind (within_target e).inner (fair_target (hlistless e List.mem_cons_self)) fair_call
  | onGoto pos index labels =>
    exact (fair_choose (hlistless index List.mem_cons_self) labels).then_modify _
  | onGosub pos index labels =>
    exact .of_bind (within_choose index labels).inner
      (fair_choose (hlistless index List.mem_cons_self) labels) fair_call
  | «for» pos header =>
    exact .of_bind (within_eval header.start).inner (fair_eval (hlistless _ List.mem_cons_self))
      fun v => .of_modify _
  | next pos header => exact fair_advanceLoop pos hlistless
  | «do» pos g header =>
    exact .of_bind (within_guard g).inner (fair_guard hlistless) fun _ => .of_ite (.of_modify _) hdone
  | loop pos g header =>
    exact .of_bind (within_guard g).inner (fair_guard hlistless) fun _ => .of_ite (.of_modify _) hdone
  | leave pos exit => exact .of_modify _
  | read pos targets => exact fair_readAll hlistless hindexed
  | «return» pos => exact fair_goBack
  | finish pos => exact .of_modify _

end Action

end LineBasic
