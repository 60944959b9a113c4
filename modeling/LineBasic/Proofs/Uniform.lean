import LineBasic.Proofs.Environments
import LineBasic.Proofs.Renaming

/-!
# Evaluation up to renaming

Expressions have the same values on both sides of a renaming, as long as functions treat containers
alike wherever they stand. The built-in functions do. Both sides may also have different clocks and
random sources; then the expressions must not call functions that look at them.
-/

namespace LineBasic

set_option autoImplicit false

namespace Eval

variable {α β γ δ : Type}

theorem run_bind (x : Eval α) (f : α → Eval γ) (random : Random) :
    (x >>= f).run random =
      match x.run random with
      | (.ok a, random) => (f a).run random
      | (.error e, random) => (.error e, random) := by
  rw [ExceptT.run_bind]
  simp only [bind, StateT.bind]
  cases x.run random with
  | mk r random => cases r <;> rfl

/-- Evaluations with related results, for random sources that are the same if it is `timely`. From the
same source they draw the same numbers. -/
def Rel (timely : Prop) (R : α → β → Prop) (x : Eval α) (y : Eval β) : Prop :=
  ∀ random random' : Random, (timely → random = random') →
    Except.Related Eq R (x.run random).1 (y.run random').1 ∧
      (random = random' → (x.run random).2 = (y.run random').2)

namespace Rel

variable {timely : Prop} {R : α → β → Prop} {S : γ → δ → Prop}

theorem of_pure {a : α} {b : β} (h : R a b) : Rel timely R (pure a) (pure b) :=
  fun _ _ _ => ⟨.ok h, id⟩

theorem of_throw (e : Error) : Rel timely R (throw e) (throw e) :=
  fun _ _ _ => ⟨.error rfl, id⟩

theorem refl (htimely : timely) (x : Eval α) : Rel timely Eq x x := by
  intro random random' hrandom
  obtain rfl := hrandom htimely
  exact ⟨.of_eq rfl, fun _ => rfl⟩

theorem of_bind {x : Eval α} {y : Eval β} {f : α → Eval γ} {g : β → Eval δ} (h : Rel timely R x y)
    (hfg : ∀ a b, R a b → Rel timely S (f a) (g b)) : Rel timely S (x >>= f) (y >>= g) := by
  intro random random' hrandom
  obtain ⟨hresult, hdrawn⟩ := h random random' hrandom
  rw [run_bind, run_bind]
  revert hresult hdrawn
  generalize x.run random = p
  generalize y.run random' = q
  rcases p with ⟨r, random₁⟩
  rcases q with ⟨r', random₂⟩
  intro hresult hdrawn
  cases hresult with
  | ok hab =>
    obtain ⟨hresult, hdrawn'⟩ := hfg _ _ hab random₁ random₂ fun h => hdrawn (hrandom h)
    exact ⟨hresult, fun h => hdrawn' (hdrawn h)⟩
  | error he => exact ⟨.error he, hdrawn⟩

theorem of_except {x : Except Error α} {y : Except Error β} (h : Except.Related Eq R x y) :
    Rel timely R (Eval.ofExcept x) (Eval.ofExcept y) :=
  fun _ _ _ => ⟨h, id⟩

theorem located {x : Eval α} {y : Eval β} (pos : Pos) (h : Rel timely R x y) :
    Rel timely R (x.located pos) (y.located pos) := by
  intro random random' hrandom
  obtain ⟨hresult, hdrawn⟩ := h random random' hrandom
  refine ⟨?_, hdrawn⟩
  change Except.Related Eq R ((x.run random).1.mapError _) ((y.run random').1.mapError _)
  revert hresult
  generalize (x.run random).1 = r
  generalize (y.run random').1 = r'
  intro hresult
  cases hresult with
  | ok hab => exact .ok hab
  | error he => exact .error (congrArg (·.locatedAt pos) he)

theorem onPos {x : Except Error α} {y : Except Error β} (pos : Pos)
    (h : Except.Related Eq R x y) : Rel timely R (Eval.onPos pos x) (Eval.onPos pos y) :=
  located pos (of_except h)

theorem mono {timely' : Prop} (hle : timely → timely') {x : Eval α} {y : Eval β}
    (h : Rel timely R x y) : Rel timely' R x y :=
  fun random random' hrandom => h random random' fun ht => hrandom (hle ht)

end Rel

end Eval

/-! ### Names that stand for the time or for chance -/

/-- The functions that look at the clock or at the random source, and the command that waits. -/
def timedNames : List String :=
  ["rnd", "time", "time$", "date$", "sleep"]

namespace Expr

mutual

/-- Whether an expression mentions one of those names with arguments. -/
def timed : Expr → Bool
  | .select _ name first more => timedNames.contains name || anyTimed first || levelsTimed more
  | .unary _ _ e => timed e
  | .binary _ _ l r => timed l || timed r
  | .list _ items => anyTimed items
  | _ => false

def anyTimed : List Expr → Bool
  | [] => false
  | e :: es => timed e || anyTimed es

def levelsTimed : List (List Expr) → Bool
  | [] => false
  | level :: more => anyTimed level || levelsTimed more

end

end Expr

def Selector.timed (s : Selector) : Bool :=
  Expr.levelsTimed s.levels

/-- Views of related heaps, with the same clock if it is `timely`. -/
structure View.Rel (timely : Prop) (σ : Renaming) (view view' : View) : Prop where
  heap : Heap.Rel σ view.heap view'.heap
  memory : view.memory = view'.memory
  clock : timely → view.clock = view'.clock

/-- A function that treats containers alike wherever they stand, and unless it is `timely` does not
look at the clock or at the random source. -/
def Function.Uniform (timely : Prop) (f : Function) : Prop :=
  ∀ {σ : Renaming} {view view' : View} {args args' : List Value}, View.Rel timely σ view view' →
    List.Forall₂ (Value.Rel σ) args args' →
    Eval.Rel timely (Value.Rel σ) (f.run view args) (f.run view' args')

theorem Function.Uniform.mono {timely timely' : Prop} (hle : timely → timely') {f : Function}
    (h : f.Uniform timely) : f.Uniform timely' :=
  fun hview hargs => (h ⟨hview.heap, hview.memory, fun ht => hview.clock (hle ht)⟩ hargs).mono hle

/-- Environments with related heaps and scopes. -/
structure Env.Rel (timely : Prop) (σ : Renaming) (env env' : Env) : Prop where
  view : View.Rel timely σ env.toView env'.toView
  scope : Scope.Rel σ env.scope env'.scope
  functions : env.functions = env'.functions
  uniform : ∀ (name : String) f, env.functions[name]? = some f → f.Uniform (name ∈ timedNames)
  literalNames : env.literalNames = env'.literalNames

namespace Env.Rel

variable {timely : Prop} {σ : Renaming} {env env' : Env}

theorem lookup (h : Env.Rel timely σ env env') (pos : Pos) (name : String) :
    Eval.Rel timely (Value.Rel σ) (env.lookup pos name) (env'.lookup pos name) := by
  unfold Env.lookup
  rw [← h.literalNames]
  split
  · exact .of_pure (.scalar rfl)
  · have hfetch := h.scope.fetch name
    revert hfetch
    generalize env.scope.fetch name = x
    generalize env'.scope.fetch name = y
    intro hfetch
    cases hfetch with
    | some hvw => exact .of_pure hvw
    | none => exact .of_throw _

theorem container? (h : Env.Rel timely σ env env') (name : String) :
    Option.Rel (fun v w => Value.Rel σ v w ∧ v.isContainer) (env.container? name)
      (env'.container? name) := by
  unfold Env.container?
  have hfetch := h.scope.fetch name
  revert hfetch
  generalize env.scope.fetch name = x
  generalize env'.scope.fetch name = y
  intro hfetch
  cases hfetch with
  | some hvw =>
    rw [Option.filter_some, Option.filter_some, ← hvw.isContainer_eq]
    split
    · rename_i hv
      exact .some ⟨hvw, hv⟩
    · exact .none
  | none => exact .none

mutual

theorem eval (h : Env.Rel timely σ env env') (e : Expr) (he : e.timed → timely) :
    Eval.Rel timely (Value.Rel σ) (env.eval e) (env'.eval e) := by
  match e with
  | .number pos x => exact .of_pure (.scalar rfl)
  | .text pos s => exact .of_pure (.scalar rfl)
  | .bool pos b => exact .of_pure (.scalar rfl)
  | .mark pos c => exact .of_pure (.scalar rfl)
  | .var pos name => exact h.lookup pos name
  | .list pos items => exact .of_throw _
  | .unary pos op e =>
    rw [Expr.timed] at he
    exact .of_bind (h.eval e he) fun v w hvw => .onPos pos (Heap.Rel.unary_rel op hvw)
  | .binary pos op l r =>
    rw [Expr.timed, Bool.or_eq_true] at he
    have hl := h.eval l fun ht => he (.inl ht)
    have hr := h.eval r fun ht => he (.inr ht)
    cases op with
    | and =>
      refine .of_bind hl fun v w hvw => ?_
      rw [hvw.isTruthy_eq]
      split
      · exact hr
      · exact .of_pure hvw
    | or =>
      refine .of_bind hl fun v w hvw => ?_
      rw [hvw.isTruthy_eq]
      split
      · exact .of_pure hvw
      · exact hr
    | _ =>
      refine .of_bind hl fun v w hvw => .of_bind hr fun v' w' hvw' => ?_
      exact .onPos pos (h.view.heap.binary_rel _ hvw hvw')
  | .select pos name first more =>
    rw [Expr.timed, Bool.or_eq_true, Bool.or_eq_true, List.contains_iff_mem] at he
    have hfirst := h.evalAll first fun ht => he (.inl (.inr ht))
    have hcontainer := h.container? name
    unfold Env.eval
    revert hcontainer
    generalize env.container? name = x
    generalize env'.container? name = y
    intro hcontainer
    cases hcontainer with
    | some hvw =>
      refine .of_bind hfirst fun keys keys' hkeys => ?_
      refine .of_bind (.onPos pos (h.view.heap.getElement_rel hvw.1 hkeys)) fun v w hvw => ?_
      exact h.fetchFrom pos name hvw more fun ht => he (.inr ht)
    | none =>
      dsimp only
      rw [← h.functions]
      cases hf : env.functions[name]? with
      | none => exact .of_throw _
      | some f =>
        have huniform : f.Uniform timely :=
          Function.Uniform.mono (fun ht => he (.inl (.inl ht))) (h.uniform name f hf)
        have hcall := Eval.Rel.of_bind hfirst fun args args' hargs =>
          (huniform h.view hargs).located pos
        dsimp only
        split
        · exact .of_bind (R := fun _ _ => True) (.of_throw _) fun _ _ _ => hcall
        · exact hcall

theorem evalAll (h : Env.Rel timely σ env env') (es : List Expr) (hes : Expr.anyTimed es → timely) :
    Eval.Rel timely (List.Forall₂ (Value.Rel σ)) (env.evalAll es) (env'.evalAll es) := by
  match es with
  | [] => exact .of_pure .nil
  | e :: es =>
    rw [Expr.anyTimed, Bool.or_eq_true] at hes
    refine .of_bind (h.eval e fun ht => hes (.inl ht)) fun v w hvw => ?_
    refine .of_bind (h.evalAll es fun ht => hes (.inr ht)) fun vs ws hvs => ?_
    exact .of_pure (.cons hvw hvs)

theorem fetchFrom (h : Env.Rel timely σ env env') (pos : Pos) (name : String) {v w : Value}
    (hvw : Value.Rel σ v w) (levels : List (List Expr))
    (hlevels : Expr.levelsTimed levels → timely) :
    Eval.Rel timely (Value.Rel σ) (env.fetchFrom pos name v levels)
      (env'.fetchFrom pos name w levels) := by
  match levels with
  | [] => exact .of_pure hvw
  | level :: more =>
    rw [Expr.levelsTimed, Bool.or_eq_true] at hlevels
    have hmore := Eval.Rel.of_bind (h.evalAll level fun ht => hlevels (.inl ht))
      fun keys keys' hkeys =>
        .of_bind (.onPos pos (h.view.heap.getElement_rel hvw hkeys)) fun v w hvw =>
          h.fetchFrom pos name hvw more fun ht => hlevels (.inr ht)
    unfold Env.fetchFrom
    rw [hvw.isContainer_eq]
    split
    · exact .of_bind (R := fun _ _ => True) (.of_throw _) fun _ _ _ => hmore
    · exact hmore

end

theorem evalArgs (h : Env.Rel timely σ env env') (args : Option Expr)
    (hargs : args.any Expr.timed → timely) :
    Eval.Rel timely (List.Forall₂ (Value.Rel σ)) (env.evalArgs args) (env'.evalArgs args) := by
  cases args with
  | none => exact .of_pure .nil
  | some e =>
    have hone : Eval.Rel timely (List.Forall₂ (Value.Rel σ))
        (do pure [← env.eval e]) (do pure [← env'.eval e]) :=
      .of_bind (h.eval e hargs) fun _ _ hvw => .of_pure (.cons hvw .nil)
    cases e with
    | list pos items =>
      rw [Option.any_some, Expr.timed] at hargs
      exact h.evalAll items hargs
    | _ => exact hone

theorem slotFrom (h : Env.Rel timely σ env env') (name : String) {v w : Value}
    (hvw : Value.Rel σ v w) (level : List Expr) (more : List (List Expr))
    (hlevel : Expr.anyTimed level → timely) (hmore : Expr.levelsTimed more → timely) :
    Eval.Rel timely (Slot.Rel σ) (env.slotFrom name v level more)
      (env'.slotFrom name w level more) := by
  induction more generalizing v w level with
  | nil =>
    refine .of_bind (h.evalAll level hlevel) fun keys keys' hkeys => ?_
    exact .of_except (h.view.heap.locate_rel .writing hvw hkeys)
  | cons following more ih =>
    rw [Expr.levelsTimed, Bool.or_eq_true] at hmore
    refine .of_bind (h.evalAll level hlevel) fun keys keys' hkeys => ?_
    refine .of_bind (.of_except (h.view.heap.getElement_rel hvw hkeys)) fun v w hvw => ?_
    have hrest := ih hvw following (fun ht => hmore (.inl ht)) fun ht => hmore (.inr ht)
    rw [hvw.isContainer_eq]
    split
    · exact .of_bind (R := fun _ _ => True) (.of_throw _) fun _ _ _ => hrest
    · exact hrest

theorem slot (h : Env.Rel timely σ env env') (name : String) (selector : Selector)
    (hselector : selector.timed → timely) :
    Eval.Rel timely (Slot.Rel σ) (env.slot name selector) (env'.slot name selector) := by
  rw [Selector.timed] at hselector
  unfold Env.slot
  have hfetch := h.scope.fetch name
  revert hfetch
  generalize env.scope.fetch name = x
  generalize env'.scope.fetch name = y
  intro hfetch
  cases hfetch with
  | some hvw =>
    dsimp only
    rw [hvw.isContainer_eq]
    split
    · cases hlevels : selector.levels with
      | nil => exact .of_throw _
      | cons first more =>
        rw [hlevels, Expr.levelsTimed, Bool.or_eq_true] at hselector
        exact h.slotFrom name hvw _ _ (fun ht => hselector (.inl ht)) fun ht => hselector (.inr ht)
    · exact .of_throw _
  | none => exact .of_throw _

end Env.Rel

/-! ### Built-in functions -/

/-- Whether a built-in function looks at the clock or at the random source. -/
def BuiltinFunction.timed : BuiltinFunction → Bool
  | .rnd | .time | .timeOfDay | .date => true
  | _ => false

namespace Function

variable {timely : Prop} {σ : Renaming} {view view' : View} {usage manual : String}
  {f : View → List Value → Except Error Value}

/-- A computation that treats containers alike wherever they stand. -/
def Alike (timely : Prop) (f : View → List Value → Except Error Value) : Prop :=
  ∀ {σ : Renaming} {view view' : View} {args args' : List Value}, View.Rel timely σ view view' →
    List.Forall₂ (Value.Rel σ) args args' →
    Except.Related Eq (Value.Rel σ) (f view args) (f view' args')

theorem uniform_of_alike (h : Alike timely f) {function : Function}
    (hrun : ∀ view args, function.run view args = Eval.ofExcept (f view args)) :
    function.Uniform timely := by
  intro σ view view' args args' hview hargs
  rw [hrun, hrun]
  exact .of_except (h hview hargs)

theorem alike_of_one
    (hone : ∀ {σ : Renaming} {view view' : View} {v w : Value}, View.Rel timely σ view view' →
      Value.Rel σ v w → Except.Related Eq (Value.Rel σ) (f view [v]) (f view' [w]))
    (hnone : ∀ view, f view [] = .error (wrongCount 1 1 0))
    (hmore : ∀ view v v' vs, f view (v :: v' :: vs) = .error (wrongCount 1 1 (vs.length + 2))) :
    Alike timely f := by
  intro σ view view' args args' hview hargs
  cases hargs with
  | nil =>
    rw [hnone, hnone]
    exact .error rfl
  | cons hvw hrest =>
    cases hrest with
    | nil => exact hone hview hvw
    | cons hvw' hrest =>
      rw [hmore, hmore, hrest.length_eq]
      exact .error rfl

theorem alike_of_two
    (htwo : ∀ {σ : Renaming} {view view' : View} {v w v' w' : Value}, View.Rel timely σ view view' →
      Value.Rel σ v w → Value.Rel σ v' w' →
      Except.Related Eq (Value.Rel σ) (f view [v, v']) (f view' [w, w']))
    (hnone : ∀ view, f view [] = .error (wrongCount 2 2 0))
    (hone : ∀ view v, f view [v] = .error (wrongCount 2 2 1))
    (hmore : ∀ view v v' v'' vs,
      f view (v :: v' :: v'' :: vs) = .error (wrongCount 2 2 (vs.length + 3))) :
    Alike timely f := by
  intro σ view view' args args' hview hargs
  cases hargs with
  | nil =>
    rw [hnone, hnone]
    exact .error rfl
  | cons hvw hrest =>
    cases hrest with
    | nil =>
      rw [hone, hone]
      exact .error rfl
    | cons hvw' hrest =>
      cases hrest with
      | nil => exact htwo hview hvw hvw'
      | cons _ hrest =>
        rw [hmore, hmore, hrest.length_eq]
        exact .error rfl

theorem text_eq {v w : Value} (hvw : Value.Rel σ v w) : text v = text w := by
  cases hvw <;> rfl

theorem count_eq (hview : View.Rel timely σ view view') {v w : Value} (hvw : Value.Rel σ v w) :
    count view.heap v = count view'.heap w := by
  unfold count
  rw [hview.heap.toNumber_eq hvw]

theorem scalar_bind {α : Type} {x y : Except Error α} (hxy : x = y) {g : α → Except Error Value}
    (hg : ∀ a, Except.Related Eq (Value.Rel σ) (g a) (g a)) :
    Except.Related Eq (Value.Rel σ) (x >>= g) (y >>= g) := by
  refine Except.Related.bind (.of_eq hxy) ?_
  rintro a _ rfl
  exact hg a

theorem math_alike (f : Float → Float) : Alike timely (math f) := by
  refine alike_of_one (fun hview hvw => ?_) (fun _ => rfl) fun _ _ _ _ => rfl
  exact scalar_bind (hview.heap.toNumber_eq hvw) fun _ => .ok (.scalar rfl)

theorem atn2_alike : Alike timely atn2 := by
  refine alike_of_two (fun hview hvw hvw' => ?_) (fun _ => rfl) (fun _ _ => rfl)
    fun _ _ _ _ _ => rfl
  unfold atn2
  dsimp only
  rw [hview.heap.toNumber_eq hvw, hview.heap.toNumber_eq hvw']
  exact scalar_bind rfl fun _ => scalar_bind rfl fun _ => .ok (.scalar rfl)

theorem asc_alike : Alike timely asc := by
  refine alike_of_one (fun hview hvw => ?_) (fun _ => rfl) fun _ _ _ _ => rfl
  refine scalar_bind (text_eq hvw) fun s => ?_
  cases s.toList with
  | nil => exact .ok (.scalar rfl)
  | cons c s => exact .ok (.scalar rfl)

theorem chr_alike : Alike timely chr := by
  refine alike_of_one (fun hview hvw => ?_) (fun _ => rfl) fun _ _ _ _ => rfl
  unfold chr
  dsimp only
  rw [hview.heap.toNumber_eq hvw, hview.heap.display_eq hvw]
  refine scalar_bind rfl fun x => ?_
  split
  · exact .ok (.scalar rfl)
  · exact .error rfl

theorem len_alike : Alike timely len := by
  refine alike_of_one (fun {σ view view' v w} hview hvw => ?_) (fun _ => rfl) fun _ v _ _ => ?_
  · cases hvw with
    | scalar hv =>
      cases v with
      | text s => exact .ok (.scalar rfl)
      | array => cases hv
      | map => cases hv
      | _ => exact .error rfl
    | array hrs =>
      unfold len
      dsimp only
      rw [(hview.heap.grid hrs).size_eq]
      exact .ok (.scalar rfl)
    | map hrs =>
      unfold len
      dsimp only
      rw [(hview.heap.dict hrs).size_eq]
      exact .ok (.scalar rfl)
  · cases v <;> rfl

theorem left_alike : Alike timely left := by
  refine alike_of_two (fun hview hvw hvw' => ?_) (fun _ => rfl) (fun _ _ => rfl)
    fun _ _ _ _ _ => rfl
  unfold left
  dsimp only
  rw [text_eq hvw, count_eq hview hvw']
  exact scalar_bind rfl fun _ => scalar_bind rfl fun _ => .ok (.scalar rfl)

theorem right_alike : Alike timely right := by
  refine alike_of_two (fun hview hvw hvw' => ?_) (fun _ => rfl) (fun _ _ => rfl)
    fun _ _ _ _ _ => rfl
  unfold right
  dsimp only
  rw [text_eq hvw, count_eq hview hvw']
  exact scalar_bind rfl fun _ => scalar_bind rfl fun _ => .ok (.scalar rfl)

/-- Unlike the other functions of texts, this one takes two or three arguments. -/
theorem mid_alike : Alike timely mid := by
  intro σ view view' args args' hview hargs
  cases hargs with
  | nil => exact .error rfl
  | cons hvw hrest =>
    cases hrest with
    | nil => exact .error rfl
    | cons hvw' hrest =>
      cases hrest with
      | nil =>
        unfold mid
        dsimp only
        rw [text_eq hvw, count_eq hview hvw']
        exact scalar_bind rfl fun _ => scalar_bind rfl fun _ => .ok (.scalar rfl)
      | cons hvw'' hrest =>
        cases hrest with
        | nil =>
          unfold mid
          dsimp only
          rw [text_eq hvw, count_eq hview hvw', count_eq hview hvw'']
          refine scalar_bind rfl fun _ => scalar_bind rfl fun _ => scalar_bind rfl fun _ => ?_
          exact .ok (.scalar rfl)
        | cons _ hrest =>
          refine .error ?_
          simp only [List.length_cons, hrest.length_eq]

theorem str_alike : Alike timely str := by
  refine alike_of_one (fun hview hvw => ?_) (fun _ => rfl) fun _ _ _ _ => rfl
  unfold str
  dsimp only
  rw [hview.heap.display_eq hvw]
  exact .ok (.scalar rfl)

theorem val_alike : Alike timely val := by
  refine alike_of_one (fun hview hvw => ?_) (fun _ => rfl) fun _ _ _ _ => rfl
  exact scalar_bind (text_eq hvw) fun _ => .ok (.scalar rfl)

theorem repeated_alike (c : Char) : Alike timely (repeated c) := by
  refine alike_of_one (fun hview hvw => ?_) (fun _ => rfl) fun _ _ _ _ => rfl
  exact scalar_bind (count_eq hview hvw) fun _ => .ok (.scalar rfl)

theorem peek_alike : Alike timely peek := by
  refine alike_of_one (fun hview hvw => ?_) (fun _ => rfl) fun _ _ _ _ => rfl
  unfold peek
  dsimp only
  rw [hview.heap.toIndex_eq hvw, hview.memory]
  exact scalar_bind rfl fun _ => .ok (.scalar rfl)

theorem ofClock_alike (htimely : timely) {f : Clock → Value} (hf : ∀ c, (f c).isContainer = false) :
    Alike timely (ofClock f) := by
  intro σ view view' args args' hview hargs
  cases hargs with
  | nil =>
    rw [ofClock, ofClock, hview.clock htimely]
    exact .ok (.scalar (hf _))
  | cons _ hrest =>
    refine .error ?_
    simp only [List.length_cons, hrest.length_eq]

theorem rnd_uniform (htimely : timely) : Uniform timely ⟨.builtin .rnd, usage, manual⟩ := by
  intro σ view view' args args' hview hargs
  have hdraw (x y : Float) (hxy : x = y) : Eval.Rel timely (Value.Rel σ) (draw x) (draw y) := by
    subst hxy
    unfold draw
    split
    · exact .of_bind (.refl htimely _) fun _ _ _ => .of_pure (.scalar rfl)
    · refine .of_bind (.refl htimely _) ?_
      rintro r _ rfl
      exact .of_pure (.scalar rfl)
  rw [Action.run_rnd, Action.run_rnd]
  unfold drawn
  cases hargs with
  | nil => exact .of_bind (.refl htimely _) hdraw
  | cons hvw hrest =>
    cases hrest with
    | nil =>
      dsimp only
      rw [hview.heap.toNumber_eq hvw]
      exact .of_bind (.refl htimely _) hdraw
    | cons _ hrest =>
      dsimp only [List.length_cons]
      rw [hrest.length_eq]
      exact .of_bind (.refl htimely _) hdraw

/-- Whether a function is built in, and has a timed name if it looks at the clock or at the random
source. -/
def namedByTime (f : String × Function) : Bool :=
  match f.2.action with
  | .builtin b => !b.timed || timedNames.contains (Text.fold f.1)
  | .host _ => false

theorem builtin_uniform (b : BuiltinFunction) : Uniform b.timed ⟨.builtin b, usage, manual⟩ := by
  cases b with
  | rnd => exact rnd_uniform rfl
  | atn2 => exact uniform_of_alike atn2_alike fun _ _ => rfl
  | asc => exact uniform_of_alike asc_alike fun _ _ => rfl
  | chr => exact uniform_of_alike chr_alike fun _ _ => rfl
  | len => exact uniform_of_alike len_alike fun _ _ => rfl
  | left => exact uniform_of_alike left_alike fun _ _ => rfl
  | mid => exact uniform_of_alike mid_alike fun _ _ => rfl
  | right => exact uniform_of_alike right_alike fun _ _ => rfl
  | str => exact uniform_of_alike str_alike fun _ _ => rfl
  | val => exact uniform_of_alike val_alike fun _ _ => rfl
  | spc => exact uniform_of_alike (repeated_alike ' ') fun _ _ => rfl
  | tab => exact uniform_of_alike (repeated_alike '\t') fun _ _ => rfl
  | peek => exact uniform_of_alike peek_alike fun _ _ => rfl
  | time | timeOfDay | date => exact uniform_of_alike (ofClock_alike rfl fun _ => rfl) fun _ _ => rfl
  | _ => exact uniform_of_alike (math_alike _) fun _ _ => rfl

/-- All built-in functions treat containers alike wherever they stand, and only those with timed
names look at the clock or at the random source. -/
theorem builtins_uniform : ∀ f ∈ builtins, f.2.Uniform (Text.fold f.1 ∈ timedNames) := by
  have hnames : builtins.all namedByTime := by decide +kernel
  rintro ⟨name, action, usage, manual⟩ hf
  have hname := List.all_eq_true.mp hnames _ hf
  cases action with
  | host run => cases hname
  | builtin b =>
    have htimely : b.timed → Text.fold name ∈ timedNames := fun htimed => by
      simpa [namedByTime, htimed] using hname
    intro σ view view' args args' hview hargs
    exact Uniform.mono htimely (builtin_uniform b) hview hargs

end Function

end LineBasic
