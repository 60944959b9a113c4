import LineBasic.Proofs.Complaints
import LineBasic.Proofs.Uniform

/-!
# Evaluation without failures of its own

Evaluating an expression without lists may fail over its operands, over what names stand for or over
the arguments of a function, but never over the shape of the expression.
-/

namespace LineBasic

set_option autoImplicit false

variable {α β : Type}

/-- A result that is no failure of the interpreter itself. -/
def Fair (x : Except Error α) : Prop :=
  ∀ e, x = .error e → e.Ordinary

namespace Fair

theorem of_ok (a : α) : Fair (.ok a) :=
  nofun

theorem of_error {e : Error} (h : e.Ordinary) : Fair (.error e : Except Error α) := by
  intro e' he
  cases he
  exact h

theorem of_code {e : Error} (h : e.code ≠ .internal) (h' : e.code ≠ .malformed) :
    Fair (.error e : Except Error α) :=
  of_error (Error.ordinary_of_code h h')

theorem typeMismatch (detail : String) : Fair (.error (.typeMismatch detail) : Except Error α) :=
  of_code nofun nofun

theorem illegalCall (detail : String) : Fair (.error (.illegalCall detail) : Except Error α) :=
  of_code nofun nofun

theorem of_bind {x : Except Error α} {f : α → Except Error β} (hx : Fair x) (hf : ∀ a, Fair (f a)) :
    Fair (x >>= f) := by
  cases x with
  | error e => exact of_error (hx e rfl)
  | ok a => exact hf a

theorem of_map {x : Except Error α} (f : α → β) (hx : Fair x) : Fair (x.map f) := by
  cases x with
  | error e => exact of_error (hx e rfl)
  | ok a => exact of_ok _

theorem located {x : Except Error α} (hx : Fair x) (pos : Pos) :
    Fair (x.mapError (·.locatedAt pos)) := by
  cases x with
  | error e => exact of_error ((hx e rfl).locatedAt pos)
  | ok a => exact of_ok a

end Fair

/-! ### Values -/

namespace Heap

variable (h : Heap)

theorem fair_toNumber (v : Value) : Fair (h.toNumber v) := by
  unfold toNumber
  split
  · exact .of_ok _
  · exact .typeMismatch _

theorem fair_toIndex (v : Value) : Fair (h.toIndex v) := by
  apply (h.fair_toNumber v).of_bind
  intro x
  split
  · exact .of_ok _
  · exact .illegalCall _

theorem fair_dim (sizes : List Value) : Fair (h.dim sizes) := by
  unfold dim
  split
  · exact .of_ok _
  · rename_i fault _
    cases fault with
    | missing => exact .illegalCall _
    | notNumber v => exact .typeMismatch _
    | notSize v => exact .illegalCall _
    | tooLarge => exact .of_code nofun nofun

theorem fair_mapKey (missing : String) (keys : List Value) : Fair (mapKey missing keys) := by
  unfold mapKey
  split
  · split
    · exact .of_ok _
    · exact .typeMismatch _
  · exact .illegalCall _

theorem fair_locate (access : Access) (container : Value) (keys : List Value) :
    Fair (h.locate access container keys) := by
  unfold locate
  split
  · split
    · exact .of_ok _
    · rename_i fault _
      cases fault with
      | count expected given => exact .of_code nofun nofun
      | notNumber v => exact .typeMismatch _
      | outside v => exact .of_code nofun nofun
  · exact (fair_mapKey _ keys).of_map _
  · exact .typeMismatch _

theorem fair_getElement (container : Value) (keys : List Value) :
    Fair (h.getElement container keys) :=
  (h.fair_locate .reading container keys).of_map h.read

theorem fair_arithmetic (f : Float → Float → Float) (a b : Value) : Fair (h.arithmetic f a b) :=
  (h.fair_toNumber a).of_bind fun _ => (h.fair_toNumber b).of_bind fun _ => .of_ok _

theorem fair_division (f : Float → Float → Float) (a b : Value) : Fair (h.division f a b) := by
  refine (h.fair_toNumber a).of_bind fun x => (h.fair_toNumber b).of_bind fun y => ?_
  split
  · exact .of_code nofun nofun
  · exact .of_ok _

theorem fair_sum (a b : Value) : Fair (h.sum a b) := by
  unfold sum
  split
  · exact .of_ok _
  · exact .of_ok _
  · exact h.fair_arithmetic _ a b

end Heap

theorem fair_unary (op : UnaryOp) (v : Value) : Fair (op.apply v) := by
  unfold UnaryOp.apply
  split
  · exact .of_ok _
  · exact .of_ok _
  · exact .of_ok _
  · exact .of_ok _
  · exact .of_ok _
  · exact .typeMismatch _

theorem fair_compareWith (texts : String → String → Bool) (numbers : Float → Float → Bool)
    (a b : Value) : Fair (compareWith texts numbers a b) := by
  unfold compareWith
  split
  · exact .of_ok _
  · split
    · exact .of_ok _
    · exact .typeMismatch _

theorem fair_binary (h : Heap) (op : BinaryOp) (a b : Value) : Fair (op.apply h a b) := by
  cases op with
  | power => exact h.fair_arithmetic _ a b
  | multiply => exact h.fair_arithmetic _ a b
  | divide => exact h.fair_division _ a b
  | divideInt => exact h.fair_division _ a b
  | modulus => exact h.fair_division _ a b
  | add => exact h.fair_sum a b
  | subtract => exact h.fair_arithmetic _ a b
  | equal => exact .of_ok _
  | notEqual => exact .of_ok _
  | less => exact fair_compareWith _ _ a b
  | lessEqual => exact fair_compareWith _ _ a b
  | greater => exact fair_compareWith _ _ a b
  | greaterEqual => exact fair_compareWith _ _ a b
  | and => exact .of_ok _
  | or => exact .of_ok _

theorem DataQueue.fair_read (d : DataQueue) : Fair d.read := by
  unfold read
  split
  · exact .of_ok _
  · exact .of_code (by simp) (by simp)

/-! ### Functions -/

namespace Eval

/-- An evaluation that does not fail over itself. -/
def Fair (x : Eval α) : Prop :=
  ∀ random, LineBasic.Fair (x.run random).1

namespace Fair

theorem of_pure (a : α) : Fair (pure a) :=
  fun _ => .of_ok a

theorem of_throw {e : Error} (h : e.Ordinary) : Fair (throw e : Eval α) :=
  fun _ => .of_error h

theorem of_except {x : Except Error α} (h : LineBasic.Fair x) : Fair (ofExcept x) :=
  fun _ => h

theorem of_bind {x : Eval α} {f : α → Eval β} (hx : Fair x) (hf : ∀ a, Fair (f a)) :
    Fair (x >>= f) := by
  intro random
  have h := hx random
  rw [run_bind]
  revert h
  rcases x.run random with ⟨r, random'⟩
  intro h
  cases r with
  | error e => exact .of_error (h e rfl)
  | ok a => exact hf a random'

theorem located {x : Eval α} (hx : Fair x) (pos : Pos) : Fair (x.located pos) :=
  fun random => (hx random).located pos

theorem onPos {x : Except Error α} (hx : LineBasic.Fair x) (pos : Pos) : Fair (Eval.onPos pos x) :=
  fun _ => hx.located pos

end Fair

end Eval

namespace Function

/-- A function that fails over its arguments only. -/
def Fair (f : Function) : Prop :=
  ∀ view args, (f.run view args).Fair

theorem wrongCount_fair (least most given : Nat) :
    LineBasic.Fair (.error (wrongCount least most given) : Except Error α) :=
  .of_code nofun nofun

theorem text_fair (v : Value) : LineBasic.Fair (text v) := by
  unfold text
  split
  · exact .of_ok _
  · exact .typeMismatch _

theorem count_fair (h : Heap) (v : Value) : LineBasic.Fair (count h v) :=
  (h.fair_toNumber v).of_bind fun _ => .of_ok _

theorem math_fair (f : Float → Float) (view : View) (args : List Value) :
    LineBasic.Fair (math f view args) := by
  unfold math
  split
  · exact (view.heap.fair_toNumber _).of_bind fun _ => .of_ok _
  · exact wrongCount_fair _ _ _

theorem atn2_fair (view : View) (args : List Value) : LineBasic.Fair (atn2 view args) := by
  unfold atn2
  split
  · exact (view.heap.fair_toNumber _).of_bind fun _ =>
      (view.heap.fair_toNumber _).of_bind fun _ => .of_ok _
  · exact wrongCount_fair _ _ _

theorem asc_fair (view : View) (args : List Value) : LineBasic.Fair (asc view args) := by
  unfold asc
  split
  · apply (text_fair _).of_bind
    intro s
    split
    · exact .of_ok _
    · exact .of_ok _
  · exact wrongCount_fair _ _ _

theorem chr_fair (view : View) (args : List Value) : LineBasic.Fair (chr view args) := by
  unfold chr
  split
  · apply (view.heap.fair_toNumber _).of_bind
    intro x
    split
    · exact .of_ok _
    · exact .illegalCall _
  · exact wrongCount_fair _ _ _

theorem len_fair (view : View) (args : List Value) : LineBasic.Fair (len view args) := by
  unfold len
  split
  · exact .of_ok _
  · exact .of_ok _
  · exact .of_ok _
  · exact .typeMismatch _
  · exact wrongCount_fair _ _ _

theorem left_fair (view : View) (args : List Value) : LineBasic.Fair (left view args) := by
  unfold left
  split
  · exact (text_fair _).of_bind fun _ => (count_fair _ _).of_bind fun _ => .of_ok _
  · exact wrongCount_fair _ _ _

theorem mid_fair (view : View) (args : List Value) : LineBasic.Fair (mid view args) := by
  unfold mid
  split
  · exact (text_fair _).of_bind fun _ => (count_fair _ _).of_bind fun _ => .of_ok _
  · exact (text_fair _).of_bind fun _ => (count_fair _ _).of_bind fun _ =>
      (count_fair _ _).of_bind fun _ => .of_ok _
  · exact wrongCount_fair _ _ _

theorem right_fair (view : View) (args : List Value) : LineBasic.Fair (right view args) := by
  unfold right
  split
  · exact (text_fair _).of_bind fun _ => (count_fair _ _).of_bind fun _ => .of_ok _
  · exact wrongCount_fair _ _ _

theorem str_fair (view : View) (args : List Value) : LineBasic.Fair (str view args) := by
  unfold str
  split
  · exact .of_ok _
  · exact wrongCount_fair _ _ _

theorem val_fair (view : View) (args : List Value) : LineBasic.Fair (val view args) := by
  unfold val
  split
  · exact (text_fair _).of_bind fun _ => .of_ok _
  · exact wrongCount_fair _ _ _

theorem repeated_fair (c : Char) (view : View) (args : List Value) :
    LineBasic.Fair (repeated c view args) := by
  unfold repeated
  split
  · exact (count_fair _ _).of_bind fun _ => .of_ok _
  · exact wrongCount_fair _ _ _

theorem peek_fair (view : View) (args : List Value) : LineBasic.Fair (peek view args) := by
  unfold peek
  split
  · exact (view.heap.fair_toIndex _).of_bind fun _ => .of_ok _
  · exact wrongCount_fair _ _ _

theorem ofClock_fair (f : Clock → Value) (view : View) (args : List Value) :
    LineBasic.Fair (ofClock f view args) := by
  unfold ofClock
  split
  · exact .of_ok _
  · exact wrongCount_fair _ _ _

theorem draw_fair (x : Float) : (draw x).Fair := by
  unfold draw
  split
  · exact .of_bind (fun _ => .of_ok _) fun _ => .of_pure _
  · exact .of_bind (fun _ => .of_ok _) fun _ => .of_pure _

theorem drawn_fair (view : View) (args : List Value) : (drawn view args).Fair := by
  unfold drawn
  split
  · exact .of_bind (.of_pure _) draw_fair
  · exact .of_bind (fun _ => view.heap.fair_toNumber _) draw_fair
  · exact .of_bind (.of_throw (Error.ordinary_of_code nofun nofun)) draw_fair

/-- All but `rnd` compute from what they see. -/
theorem builtin_fair (b : BuiltinFunction) (usage manual : String) :
    Fair ⟨.builtin b, usage, manual⟩ := by
  intro view args
  cases b with
  | rnd =>
    rw [Action.run_rnd]
    exact drawn_fair view args
  | atn2 => exact fun _ => atn2_fair view args
  | asc => exact fun _ => asc_fair view args
  | chr => exact fun _ => chr_fair view args
  | len => exact fun _ => len_fair view args
  | left => exact fun _ => left_fair view args
  | mid => exact fun _ => mid_fair view args
  | right => exact fun _ => right_fair view args
  | str => exact fun _ => str_fair view args
  | val => exact fun _ => val_fair view args
  | spc => exact fun _ => repeated_fair ' ' view args
  | tab => exact fun _ => repeated_fair '\t' view args
  | peek => exact fun _ => peek_fair view args
  | time => exact fun _ => ofClock_fair (fun c => .number (Float.ofInt c.millis)) view args
  | timeOfDay => exact fun _ => ofClock_fair (fun c => .text c.timeOfDay) view args
  | date => exact fun _ => ofClock_fair (fun c => .text c.date) view args
  | _ => exact fun _ => math_fair _ view args

theorem builtins_fair : ∀ f ∈ builtins, f.2.Fair := by
  simp only [builtins, List.forall_mem_cons, builtin_fair, true_and]
  exact List.forall_mem_nil _

end Function

/-! ### Expressions -/

namespace Env

variable {env : Env}

theorem fair_lookup (pos : Pos) (name : String) : (env.lookup pos name).Fair := by
  unfold lookup
  split
  · exact .of_pure _
  · split
    · exact .of_pure _
    · apply Eval.Fair.of_throw
      have hcode : (Error.unknownIdentifier name).Ordinary :=
        Error.ordinary_of_code (by simp [Error.unknownIdentifier]) (by simp [Error.unknownIdentifier])
      exact hcode.locatedAt pos

theorem fair_evalAll {es : List Expr} (h : ∀ e ∈ es, (env.eval e).Fair) : (env.evalAll es).Fair := by
  induction es with
  | nil => exact .of_pure _
  | cons e es ih =>
    obtain ⟨he, hes⟩ := List.forall_mem_cons.mp h
    exact he.of_bind fun _ => (ih hes).of_bind fun _ => .of_pure _

theorem fair_fetchFrom {levels : List (List Expr)}
    (h : ∀ level ∈ levels, ∀ e ∈ level, (env.eval e).Fair) (pos : Pos) (name : String) (v : Value) :
    (env.fetchFrom pos name v levels).Fair := by
  induction levels generalizing v with
  | nil => exact .of_pure _
  | cons level levels ih =>
    obtain ⟨hlevel, hlevels⟩ := List.forall_mem_cons.mp h
    have hmore : Eval.Fair (do
        let keys ← env.evalAll level
        let v ← Eval.onPos pos (env.heap.getElement v keys)
        env.fetchFrom pos name v levels) := by
      refine (fair_evalAll hlevel).of_bind fun keys => ?_
      exact (Eval.Fair.onPos (env.heap.fair_getElement v keys) pos).of_bind fun v => ih hlevels v
    unfold fetchFrom
    split
    · refine Eval.Fair.of_bind (.of_throw ?_) fun _ => hmore
      exact (Error.ordinary_of_code nofun nofun : (Error.notSelectable name).Ordinary).locatedAt pos
    · exact hmore

/-- Induction over the expression; a name with arguments is where functions come in. -/
theorem fair_eval (hfair : ∀ (name : String) f, env.functions[name]? = some f → f.Fair) {e : Expr}
    (h : e.Listless) : (env.eval e).Fair := by
  induction h with
  | number => exact .of_pure _
  | text => exact .of_pure _
  | bool => exact .of_pure _
  | mark => exact .of_pure _
  | var pos name => exact fair_lookup pos name
  | unary pos op _ ih => exact ih.of_bind fun v => .onPos (fair_unary op v) pos
  | binary pos op _ _ ihl ihr =>
    cases op with
    | and =>
      apply ihl.of_bind
      intro v
      split
      · exact ihr
      · exact .of_pure _
    | or =>
      apply ihl.of_bind
      intro v
      split
      · exact .of_pure _
      · exact ihr
    | _ => exact ihl.of_bind fun v => ihr.of_bind fun w => .onPos (fair_binary _ _ v w) pos
  | select pos name _ ih =>
    obtain ⟨hfirst, hmore⟩ := List.forall_mem_cons.mp ih
    unfold eval
    split
    · refine (fair_evalAll hfirst).of_bind fun keys => ?_
      exact (Eval.Fair.onPos (env.heap.fair_getElement _ keys) pos).of_bind fun v =>
        fair_fetchFrom hmore pos name v
    · split
      · exact .of_throw (Error.ordinary_of_code (by simp) (by simp))
      · rename_i f hf
        have hcall := (fair_evalAll hfirst).of_bind fun args =>
          (hfair name f hf env.toView args).located pos
        dsimp only
        split
        · refine Eval.Fair.of_bind (.of_throw ?_) fun _ => hcall
          have hcode : (Error.illegalCall (name ++ " is not an array or map")).Ordinary :=
            Error.ordinary_of_code (by simp [Error.illegalCall]) (by simp [Error.illegalCall])
          exact hcode.locatedAt pos
        · exact hcall

section Fair

variable (hfair : ∀ (name : String) f, env.functions[name]? = some f → f.Fair)
include hfair

theorem fair_evalArgs {args : Option Expr} (h : ∀ e ∈ Expr.arguments args, e.Listless) :
    (env.evalArgs args).Fair := by
  unfold evalArgs
  split
  · exact .of_pure _
  · exact fair_evalAll fun e he => fair_eval hfair (h e he)
  · rename_i e hlist
    have he : e.Listless := by
      cases e with
      | list pos items => exact absurd rfl (hlist pos items)
      | _ => exact h _ List.mem_cons_self
    exact (fair_eval hfair he).of_bind fun _ => .of_pure _

theorem fair_slotFrom (name : String) (container : Value) {level : List Expr}
    {more : List (List Expr)} (h : ∀ l ∈ level :: more, ∀ e ∈ l, e.Listless) :
    (env.slotFrom name container level more).Fair := by
  induction more generalizing container level with
  | nil =>
    refine (fair_evalAll fun e he => fair_eval hfair (h level List.mem_cons_self e he)).of_bind
      fun keys => ?_
    exact .of_except (env.heap.fair_locate _ _ keys)
  | cons following more ih =>
    obtain ⟨hlevel, hmore⟩ := List.forall_mem_cons.mp h
    refine (fair_evalAll fun e he => fair_eval hfair (hlevel e he)).of_bind fun keys => ?_
    refine (Eval.Fair.of_except (env.heap.fair_getElement container keys)).of_bind fun v => ?_
    have hrest := ih v hmore
    split
    · exact Eval.Fair.of_bind (.of_throw (Error.ordinary_of_code nofun nofun)) fun _ => hrest
    · exact hrest

theorem fair_slot (name : String) {selector : Selector} (h : selector.Listless)
    (hindexed : selector.Indexed) : (env.slot name selector).Fair := by
  unfold slot
  split
  · exact .of_throw (Error.ordinary_of_code (by rintro ⟨⟩) (by rintro ⟨⟩))
  · split
    · split
      · exact absurd ‹_› hindexed
      · rename_i hlevels
        exact fair_slotFrom hfair name _ (hlevels ▸ h)
    · exact .of_throw (Error.ordinary_of_code (by rintro ⟨⟩) (by rintro ⟨⟩))

end Fair

end Env

end LineBasic
