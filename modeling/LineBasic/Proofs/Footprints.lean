import LineBasic.Machine.Eval
import LineBasic.Proofs.Elements
import LineBasic.Proofs.Uniform

/-!
# Elements that an evaluation reads

An expression reads an element when the evaluation of one of its parts does, when a selector in it
comes to the element, or when a function or an operator would give something else with another value
there. Main statement: an evaluation that does not read an element gives the same after the element
was written. Errors are left out, because their texts may show more than what was read.
-/

namespace LineBasic

set_option autoImplicit false

namespace Eval

variable {α β : Type}

/-- A value that an evaluation gives, for some random source. -/
def Yields (x : Eval α) (a : α) : Prop :=
  ∃ random, (x.run random).1 = .ok a

/-- Whatever `x` gives, `y` gives too, and it draws as many random numbers. -/
def Keeps (x y : Eval α) : Prop :=
  ∀ random a after, x.run random = (.ok a, after) → y.run random = (.ok a, after)

theorem Yields.of_run {x : Eval α} {a : α} {random after : Random}
    (h : x.run random = (.ok a, after)) : x.Yields a :=
  ⟨random, by rw [h]⟩

theorem run_bind_eq_ok {x : Eval α} {f : α → Eval β} {random after : Random} {b : β}
    (h : (x >>= f).run random = (.ok b, after)) :
    ∃ a between, x.run random = (.ok a, between) ∧ (f a).run between = (.ok b, after) := by
  rw [run_bind] at h
  rcases hx : x.run random with ⟨r, between⟩
  rw [hx] at h
  cases r with
  | ok a => exact ⟨a, between, rfl, h⟩
  | error e => cases h

namespace Keeps

theorem refl (x : Eval α) : x.Keeps x :=
  fun _ _ _ h => h

theorem of_eq {x y : Eval α} (h : x = y) : x.Keeps y :=
  h ▸ refl x

theorem of_throw (e : Error) (y : Eval α) : (throw e : Eval α).Keeps y :=
  fun _ _ _ h => nomatch h

theorem of_bind {x y : Eval α} {f g : α → Eval β} (h : x.Keeps y)
    (hfg : ∀ a, x.Yields a → (f a).Keeps (g a)) : (x >>= f).Keeps (y >>= g) := by
  intro random b after hrun
  obtain ⟨a, between, hx, hf⟩ := run_bind_eq_ok hrun
  rw [run_bind, h random a between hx]
  exact hfg a (.of_run hx) between b after hf

theorem of_except {x y : Except Error α} (h : ∀ a, x = .ok a → y = .ok a) :
    (ofExcept x).Keeps (ofExcept y) := by
  intro random a after hrun
  obtain ⟨hx, hafter⟩ := Prod.mk.inj (show (x, random) = (.ok a, after) from hrun)
  exact Prod.ext (h a hx) hafter

theorem onPos (pos : Pos) {x y : Except Error α} (h : ∀ a, x = .ok a → y = .ok a) :
    (Eval.onPos pos x).Keeps (Eval.onPos pos y) := by
  refine of_except fun a hx => ?_
  cases x with
  | ok b => rw [h b rfl]; exact hx
  | error e => cases hx

end Keeps

end Eval

/-- Whether the right side of an operator is evaluated after the left side gave `v`. -/
def BinaryOp.goesOn : BinaryOp → Value → Bool
  | .and, v => v.isTruthy
  | .or, v => !v.isTruthy
  | _, _ => true

namespace Env

/-- The environment after an element was written. -/
def wrote (env : Env) (slot : Slot) (u : Value) : Env :=
  { env with heap := env.heap.write slot u }

mutual

/-- The evaluation of an expression reads the element. -/
inductive Reads (env : Env) (slot : Slot) : Expr → Prop where
  | operand {pos : Pos} {op : UnaryOp} {e : Expr} (h : Reads env slot e) :
      Reads env slot (.unary pos op e)
  | left {pos : Pos} {op : BinaryOp} {l r : Expr} (h : Reads env slot l) :
      Reads env slot (.binary pos op l r)
  | right {pos : Pos} {op : BinaryOp} {l r : Expr} {v : Value} (hl : (env.eval l).Yields v)
      (hop : op.goesOn v = true) (h : Reads env slot r) : Reads env slot (.binary pos op l r)
  | operator {pos : Pos} {op : BinaryOp} {l r : Expr} {v w u : Value} (hl : (env.eval l).Yields v)
      (hr : (env.eval r).Yields w)
      (h : op.apply (env.wrote slot u).heap v w ≠ op.apply env.heap v w) :
      Reads env slot (.binary pos op l r)
  | argument {pos : Pos} {name : String} {args : List Expr} {more : List (List Expr)}
      (hname : env.container? name = none) (h : ReadsAny env slot args) :
      Reads env slot (.select pos name args more)
  | call {pos : Pos} {name : String} {args : List Expr} {more : List (List Expr)} {f : Function}
      {vs : List Value} {u : Value} (hname : env.container? name = none)
      (hf : env.functions[name]? = some f) (hargs : (env.evalAll args).Yields vs)
      (h : f.run (env.wrote slot u).toView vs ≠ f.run env.toView vs) :
      Reads env slot (.select pos name args more)
  | way {pos : Pos} {name : String} {container : Value} {first : List Expr}
      {more : List (List Expr)} (hname : env.container? name = some container)
      (h : ReadsOnWay env slot container first more) :
      Reads env slot (.select pos name first more)
  | found {pos : Pos} {name : String} {container : Value} {first : List Expr}
      {more : List (List Expr)} (hname : env.container? name = some container)
      (h : (env.slotFrom name container first more).Yields slot) :
      Reads env slot (.select pos name first more)

/-- The evaluation of one of several expressions reads the element. -/
inductive ReadsAny (env : Env) (slot : Slot) : List Expr → Prop where
  | head {e : Expr} {es : List Expr} (h : Reads env slot e) : ReadsAny env slot (e :: es)
  | tail {e : Expr} {es : List Expr} (h : ReadsAny env slot es) : ReadsAny env slot (e :: es)

/-- The keys of a selector read the element, or it is passed on the way from a container through the
levels before the last one. -/
inductive ReadsOnWay (env : Env) (slot : Slot) : Value → List Expr → List (List Expr) → Prop where
  | keys {container : Value} {level : List Expr} {more : List (List Expr)}
      (h : ReadsAny env slot level) : ReadsOnWay env slot container level more
  | passed {container : Value} {level following : List Expr} {more : List (List Expr)}
      {keys : List Value} (hkeys : (env.evalAll level).Yields keys)
      (h : env.heap.locate .reading container keys = .ok slot) :
      ReadsOnWay env slot container level (following :: more)
  | later {container : Value} {level following : List Expr} {more : List (List Expr)}
      {keys : List Value} {earlier : Slot} (hkeys : (env.evalAll level).Yields keys)
      (hearlier : env.heap.locate .reading container keys = .ok earlier)
      (h : ReadsOnWay env slot (env.heap.read earlier) following more) :
      ReadsOnWay env slot container level (following :: more)

end

/-! ### What is not read may be written -/

section

variable {env : Env} {slot : Slot}

theorem getElement_wrote (hw : env.heap.Writable slot) (u : Value) {container : Value}
    {keys : List Value} {v : Value}
    (hne : env.heap.locate .reading container keys ≠ .ok slot)
    (h : env.heap.getElement container keys = .ok v) :
    (env.wrote slot u).heap.getElement container keys = .ok v := by
  obtain ⟨found, hfound, rfl⟩ := Heap.getElement_eq_ok_iff.mp h
  have hother : slot ≠ found := fun heq => hne (heq ▸ hfound)
  refine Heap.getElement_eq_ok_iff.mpr ⟨found, Heap.locate_write.mpr hfound, ?_⟩
  exact (Heap.read_write hw u found).trans (if_neg hother)

/-- A walk that does not pass the element comes to the same place. -/
theorem keeps_slotFrom (hw : env.heap.Writable slot) (u : Value) (name : String) {container : Value}
    {level : List Expr} {more : List (List Expr)}
    (hlevels : ∀ level' ∈ level :: more, ¬env.ReadsAny slot level' →
      (env.evalAll level').Keeps ((env.wrote slot u).evalAll level'))
    (h : ¬env.ReadsOnWay slot container level more) :
    (env.slotFrom name container level more).Keeps
      ((env.wrote slot u).slotFrom name container level more) := by
  induction more generalizing container level with
  | nil =>
    refine .of_bind (hlevels level (.head _) fun hkeys => h (.keys hkeys)) fun keys _ => ?_
    exact .of_except fun found hfound => Heap.locate_write.mpr hfound
  | cons following more ih =>
    obtain ⟨hlevel, hlevels⟩ := List.forall_mem_cons.mp hlevels
    refine .of_bind (hlevel fun hkeys => h (.keys hkeys)) fun keys hkeys => ?_
    have hne : env.heap.locate .reading container keys ≠ .ok slot := fun hslot =>
      h (.passed hkeys hslot)
    refine .of_bind (.of_except fun v hv => getElement_wrote hw u hne hv) fun v hv => ?_
    have hrest : (env.slotFrom name v following more).Keeps
        ((env.wrote slot u).slotFrom name v following more) := by
      obtain ⟨_, hv⟩ := hv
      obtain ⟨earlier, hearlier, rfl⟩ := Heap.getElement_eq_ok_iff.mp hv
      exact ih hlevels fun hlater => h (.later hkeys hearlier hlater)
    split
    · exact .of_bind (.of_throw _ _) fun _ _ => hrest
    · exact hrest

mutual

theorem keeps_eval (hw : env.heap.Writable slot) (u : Value) (e : Expr) (he : ¬env.Reads slot e) :
    (env.eval e).Keeps ((env.wrote slot u).eval e) := by
  match e with
  | .number pos x => exact .refl _
  | .text pos s => exact .refl _
  | .bool pos b => exact .refl _
  | .mark pos c => exact .refl _
  | .var pos name => exact .refl _
  | .list pos items => exact .refl _
  | .unary pos op e =>
    exact .of_bind (keeps_eval hw u e fun h => he (.operand h)) fun v _ => .refl _
  | .binary pos op l r =>
    have hl := keeps_eval hw u l fun h => he (.left h)
    have hr {v : Value} (hv : (env.eval l).Yields v) (hop : op.goesOn v = true) :=
      keeps_eval hw u r fun h => he (.right hv hop h)
    cases op with
    | and =>
      refine .of_bind hl fun v hv => ?_
      split
      · rename_i htruthy
        exact hr hv htruthy
      · exact .refl _
    | or =>
      refine .of_bind hl fun v hv => ?_
      split
      · exact .refl _
      · rename_i hfalsy
        exact hr hv (by simpa [BinaryOp.goesOn] using hfalsy)
    | _ =>
      refine .of_bind hl fun v hv => .of_bind (hr hv rfl) fun w hright => .onPos pos fun x hx => ?_
      exact (not_not.mp fun hne => he (.operator hv hright hne)).trans hx
  | .select pos name first more =>
    cases hname : env.container? name with
    | some container =>
      have hname' : (env.wrote slot u).container? name = some container := hname
      have hlevels := List.forall_mem_cons.mpr ⟨keeps_evalAll hw u first, keeps_levels hw u more⟩
      have hwalk := keeps_slotFrom hw u name hlevels fun h => he (.way hname h)
      intro random v after hrun
      obtain ⟨found, hfound, rfl⟩ := (fetches_select hname pos first more).ok_iff.mp hrun
      have hother : slot ≠ found := by
        rintro rfl
        exact he (.found hname (.of_run hfound))
      refine (fetches_select hname' pos first more).ok_iff.mpr
        ⟨found, hwalk random found after hfound, ?_⟩
      exact (Heap.read_write hw u found).trans (if_neg hother)
    | none =>
      have hname' : (env.wrote slot u).container? name = none := hname
      have hfunctions : (env.wrote slot u).functions = env.functions := rfl
      have hargs := keeps_evalAll hw u first fun h => he (.argument hname h)
      unfold Env.eval
      rw [hname, hname', hfunctions]
      dsimp only
      cases hf : env.functions[name]? with
      | none => exact .refl _
      | some f =>
        have hsame {vs : List Value} (hvs : (env.evalAll first).Yields vs) :
            f.run (env.wrote slot u).toView vs = f.run env.toView vs :=
          not_not.mp fun hne => he (.call hname hf hvs hne)
        have hcall := Eval.Keeps.of_bind hargs fun vs hvs =>
          .of_eq (congrArg (Eval.located pos) (hsame hvs).symm)
        dsimp only
        split
        · exact .of_bind (.of_throw _ _) fun _ _ => hcall
        · exact hcall

theorem keeps_evalAll (hw : env.heap.Writable slot) (u : Value) (es : List Expr)
    (hes : ¬env.ReadsAny slot es) :
    (env.evalAll es).Keeps ((env.wrote slot u).evalAll es) := by
  match es with
  | [] => exact .refl _
  | e :: es =>
    refine .of_bind (keeps_eval hw u e fun h => hes (.head h)) fun v _ => ?_
    exact .of_bind (keeps_evalAll hw u es fun h => hes (.tail h)) fun vs _ => .refl _

theorem keeps_levels (hw : env.heap.Writable slot) (u : Value) (levels : List (List Expr)) :
    ∀ level ∈ levels, ¬env.ReadsAny slot level →
      (env.evalAll level).Keeps ((env.wrote slot u).evalAll level) := by
  match levels with
  | [] => exact nofun
  | level :: levels =>
    exact List.forall_mem_cons.mpr ⟨keeps_evalAll hw u level, keeps_levels hw u levels⟩

end

end

end Env

end LineBasic
