import LineBasic.Proofs.Twins

/-!
# Running in lockstep

Whatever a statement does, it does to machines that are the same up to renaming in the same way: they
stay the same up to renaming, and what it returns or fails with is the same. So do turns, calls and
everything else that a host can do.
-/

namespace LineBasic

set_option autoImplicit false

/-! ### Statements that mention timed names -/

def Guard.timed : Guard → Bool
  | .while e => e.timed
  | .until e => e.timed

def Target.timed : Target → Bool
  | .var _ _ => false
  | .element _ _ selector => selector.timed

/-- Whether running a statement can make it call something with a timed name. -/
def Stmt.timed {χ : Type} : Stmt χ → Bool
  | .command _ name args _ => timedNames.contains name || args.any Expr.timed
  | .assign _ _ e => e.timed
  | .assignElement _ _ selector e => selector.timed || e.timed
  | .dim _ _ sizes => Expr.anyTimed sizes
  | .when _ condition taken => condition.timed || taken.timed
  | .choose _ condition taken otherwise => condition.timed || taken.timed || otherwise.timed
  | .goto _ e => e.timed
  | .gosub _ e => e.timed
  | .onGoto _ index _ => index.timed
  | .onGosub _ index _ => index.timed
  | .for _ header => header.start.timed
  | .next _ header => header.limit.timed || header.step.any Expr.timed
  | .do _ g _ => g.any Guard.timed
  | .loop _ g _ => g.any Guard.timed
  | .read _ targets => targets.any Target.timed
  | .map _ _ | .leave _ _ | .return _ | .finish _ => false

/-! ### Texts of commands -/

namespace Command

variable {σ : Renaming} {h h' : Heap} {args args' : List Value}

theorem targetsOf_eq (hargs : List.Forall₂ (Value.Rel σ) args args') :
    targetsOf args = targetsOf args' := by
  unfold targetsOf
  induction hargs with
  | nil => rfl
  | cons hvw _ ih =>
    rw [List.filterMap_cons, List.filterMap_cons, ih]
    cases hvw <;> rfl

theorem printedEnding_eq (hargs : List.Forall₂ (Value.Rel σ) args args') :
    printedEnding args = printedEnding args' := by
  induction hargs with
  | nil => rfl
  | cons hvw hrest ih =>
    cases hrest with
    | nil => cases hvw <;> rfl
    | cons =>
      unfold printedEnding at ih ⊢
      rw [List.getLast?_cons_cons, List.getLast?_cons_cons]
      exact ih

end Command

namespace Heap.Rel

variable {σ : Renaming} {h h' : Heap} (hrel : Rel σ h h') {args args' : List Value}
  (hargs : List.Forall₂ (Value.Rel σ) args args')
include hrel hargs

theorem printedValues_eq (first joined : Bool) :
    Command.printedValues h first joined args = Command.printedValues h' first joined args' := by
  induction hargs generalizing first joined with
  | nil => rfl
  | @cons v w _ _ hvw _ ih =>
    have hdisplay := hrel.display_eq hvw
    cases hvw with
    | scalar hv =>
      cases v with
      | mark c => exact ih first (c == ';')
      | array => cases hv
      | map => cases hv
      | _ =>
        unfold Command.printedValues
        rw [hdisplay, ih]
    | array =>
      unfold Command.printedValues
      rw [hdisplay, ih]
    | map =>
      unfold Command.printedValues
      rw [hdisplay, ih]

theorem printed_eq : Command.printed h args = Command.printed h' args' := by
  rw [Command.printed, Command.printed, hrel.printedValues_eq hargs, Command.printedEnding_eq hargs]

theorem promptOf_eq : Command.promptOf h args = Command.promptOf h' args' := by
  induction hargs with
  | nil => rfl
  | @cons v w _ _ hvw _ ih =>
    have hdisplay := hrel.display_eq hvw
    cases hvw with
    | scalar hv =>
      cases v with
      | mark => exact ih
      | name => exact ih
      | array => cases hv
      | map => cases hv
      | _ =>
        unfold Command.promptOf
        rw [hdisplay, ih]
    | array =>
      unfold Command.promptOf
      rw [hdisplay, ih]
    | map =>
      unfold Command.promptOf
      rw [hdisplay, ih]

theorem fileName_eq : Command.fileName h args = Command.fileName h' args' := by
  cases hargs with
  | nil => rfl
  | @cons v w _ _ hvw hrest =>
    have hdisplay := hrel.display_eq hvw
    cases hrest with
    | cons =>
      cases hvw with
      | scalar => cases v <;> rfl
      | array => rfl
      | map => rfl
    | nil =>
      cases hvw with
      | scalar hv =>
        cases v with
        | array => cases hv
        | map => cases hv
        | _ => rfl
      | array => exact congrArg (Except.error <| Error.typeMismatch <| · ++ " is not a file name") hdisplay
      | map => exact congrArg (Except.error <| Error.typeMismatch <| · ++ " is not a file name") hdisplay

theorem startLabel_eq : Command.startLabel h args = Command.startLabel h' args' := by
  cases hargs with
  | nil => rfl
  | @cons v w _ _ hvw _ =>
    have hdisplay := hrel.display_eq hvw
    cases hvw with
    | scalar hv =>
      cases v with
      | array => cases hv
      | map => cases hv
      | _ => rfl
    | array => exact congrArg (Except.error <| Error.typeMismatch <| · ++ " is not a label") hdisplay
    | map => exact congrArg (Except.error <| Error.typeMismatch <| · ++ " is not a label") hdisplay

omit hargs in
theorem binding_eq (name : String) {v w : Value} (hvw : Value.Rel σ v w) :
    Command.binding h name v = Command.binding h' name w := by
  have hdisplay := hrel.display_eq hvw
  cases hvw with
  | scalar hv =>
    cases v with
    | array => cases hv
    | map => cases hv
    | _ => rfl
  | array => exact congrArg ("* " ++ name ++ "=" ++ · ++ "\n") hdisplay
  | map => exact congrArg ("* " ++ name ++ "=" ++ · ++ "\n") hdisplay

omit hargs in
theorem shown_eq (shown : String → Bool) {l l' : List (String × Value)}
    (hl : List.Forall₂ (fun e e' => e.1 = e'.1 ∧ Value.Rel σ e.2 e'.2) l l') :
    (l.filter fun e => shown e.1).map (fun e => Command.binding h e.1 e.2) =
      (l'.filter fun e => shown e.1).map fun e => Command.binding h' e.1 e.2 := by
  induction hl with
  | nil => rw [List.filter_nil, List.map_nil, List.map_nil]
  | @cons e e' _ _ he _ ih =>
    rw [List.filter_cons, List.filter_cons, he.1]
    split
    · rw [List.map_cons, List.map_cons, he.1, hrel.binding_eq e'.1 he.2, ih]
    · exact ih

end Heap.Rel

theorem Machine.Twins.bindings_eq {L : Likeness} {m m' : Machine}
    (hm : m.Twins L m') (filter : String) :
    Command.bindings m filter = Command.bindings m' filter :=
  congrArg String.join
    (hm.heap.rel.shown_eq (fun name => Text.occursIn filter.toList name.toList) hm.scope.toList)

namespace Action

variable {α β γ δ : Type} {L : Likeness} {σ : Renaming}

/-- Actions with related results on related machines. What they are given is related by `σ`, and
what they return is related by all that exists then. -/
def Tracks (L : Likeness) (σ : Renaming) (R : Renaming → α → β → Prop) (x : Action α)
    (y : Action β) : Prop :=
  ∀ m m' : Machine, m.Twins L m' → σ.Le (L.below m.heap) →
    Except.Related Eq (R (L.below (x.run m).2.heap)) (x.run m).1 (y.run m').1 ∧
      (x.run m).2.Twins L (y.run m').2 ∧ m.heap.Grows (x.run m).2.heap

namespace Tracks

variable {R : Renaming → α → β → Prop} {S : Renaming → γ → δ → Prop}

theorem of_pure {a : α} {b : β} (h : ∀ τ, σ.Le τ → R τ a b) :
    Tracks L σ R (pure a) (pure b) :=
  fun _ _ hm hle => ⟨.ok (h _ hle), hm, .refl _⟩

theorem of_throw (e : Error) : Tracks L σ R (throw e) (throw e) :=
  fun _ _ hm _ => ⟨.error rfl, hm, .refl _⟩

theorem of_except {x : Except Error α} {y : Except Error β}
    (h : ∀ τ, σ.Le τ → Except.Related Eq (R τ) x y) :
    Tracks L σ R (ofExcept x) (ofExcept y) :=
  fun _ _ hm hle => ⟨h _ hle, hm, .refl _⟩

theorem of_bind {x : Action α} {y : Action β} {f : α → Action γ} {g : β → Action δ}
    (hxy : Tracks L σ R x y)
    (hfg : ∀ τ a b, σ.Le τ → R τ a b → Tracks L τ S (f a) (g b)) :
    Tracks L σ S (x >>= f) (y >>= g) := by
  intro m m' hm hle
  obtain ⟨hresult, htwins, hgrows⟩ := hxy m m' hm hle
  rw [run_bind, run_bind]
  revert hresult htwins hgrows
  generalize x.run m = p
  generalize y.run m' = q
  rcases p with ⟨r, m₁⟩
  rcases q with ⟨r', m₁'⟩
  intro hresult htwins hgrows
  cases hresult with
  | ok hab =>
    obtain ⟨hresult, htwins', hgrows'⟩ :=
      hfg _ _ _ (hle.trans (hgrows.below L.refs)) hab _ _ htwins fun _ _ _ h => h
    exact ⟨hresult, htwins', hgrows.trans hgrows'⟩
  | error he => exact ⟨.error he, htwins, hgrows⟩

theorem of_get {k : Machine → Action α} {k' : Machine → Action β}
    (h : ∀ m m' : Machine, m.Twins L m' → σ.Le (L.below m.heap) →
      Tracks L (L.below m.heap) R (k m) (k' m')) :
    Tracks L σ R (get >>= k) (get >>= k') := by
  intro m m' hm hle
  exact h m m' hm hle m m' hm fun _ _ _ hr => hr

theorem of_modify {f g : Machine → Machine}
    (h : ∀ m m' : Machine, m.Twins L m' → σ.Le (L.below m.heap) →
      (f m).Twins L (g m') ∧ m.heap.Grows (f m).heap) :
    Tracks L σ (fun _ => Eq) (modify f) (modify g) :=
  fun m m' hm hle => ⟨.ok rfl, h m m' hm hle⟩

theorem of_update {f : Machine → Machine} (hf : ∀ m p, f (m.withStock p) = (f m).withStock p)
    (hfixtures : ∀ m, (f m).fixtures = m.fixtures) :
    Tracks L σ (fun _ => Eq) (modify f) (modify f) := by
  refine of_modify fun m m' hm _ => ⟨hm.update hf (hfixtures m), ?_⟩
  have hheap : (f m).heap = m.heap := congrArg (·.heap) (hf m m.stock)
  rw [hheap]
  exact .refl _

theorem of_located (pos : Pos) {x : Action α} {y : Action β} (h : Tracks L σ R x y) :
    Tracks L σ R (located pos x) (located pos y) := by
  intro m m' hm hle
  obtain ⟨hresult, htwins⟩ := h m m' hm hle
  rw [run_located, run_located]
  refine ⟨?_, htwins⟩
  dsimp only
  revert hresult
  generalize (x.run m).1 = r
  generalize (y.run m').1 = r'
  intro hresult
  cases hresult with
  | ok hab => exact .ok hab
  | error he => exact .error (congrArg (·.locatedAt pos) he)

theorem of_evaluate {x : Env → Eval α} {y : Env → Eval β}
    (h : ∀ (τ : Renaming) (env env' : Env), Env.Rel L.timely τ env env' → σ.Le τ →
      Eval.Rel L.timely (R τ) (x env) (y env')) :
    Tracks L σ R (evaluate x) (evaluate y) := by
  intro m m' hm hle
  obtain ⟨hresult, hrandom⟩ := h _ _ _ hm.env hle m.random m'.random hm.random
  exact ⟨hresult, hm.withRandom fun ht => hrandom (hm.random ht), .refl _⟩

theorem of_naming {x : Action α} {y : Action β} (h : Tracks L σ R x y)
    (literalNames : Bool) :
    Tracks L σ R (naming literalNames x) (naming literalNames y) := by
  have hset {n n' : Machine} (hn : n.Twins L n') (b : Bool) :
      ({ n with literalNames := b } : Machine).Twins L { n' with literalNames := b } :=
    hn.update (f := fun m => { m with literalNames := b }) (fun _ _ => rfl) rfl
  intro m m' hm hle
  obtain ⟨hresult, htwins, hgrows⟩ := h _ _ (hset hm literalNames) hle
  exact ⟨hresult, hset htwins false, hgrows⟩

end Tracks

theorem tracks_eval (e : Expr) (he : e.timed → L.timely) :
    Tracks L σ Value.Rel (eval e) (eval e) :=
  eval_eq e ▸ .of_evaluate fun _ _ _ h _ => h.eval e he

theorem tracks_evalArgs (args : Option Expr) (hargs : args.any Expr.timed → L.timely) :
    Tracks L σ (fun τ => List.Forall₂ (Value.Rel τ)) (evalArgs args) (evalArgs args) :=
  evalArgs_eq args ▸ .of_evaluate fun _ _ _ h _ => h.evalArgs args hargs

theorem tracks_evalNumber (e : Expr) (he : e.timed → L.timely) :
    Tracks L σ (fun _ => Eq) (evalNumber e) (evalNumber e) := by
  refine .of_bind (tracks_eval e he) fun τ v w _ hvw => .of_get fun m m' hm hle => ?_
  exact .of_except fun _ _ => .of_eq (hm.heap.rel.toNumber_eq (hvw.mono hle))

theorem tracks_store (name : String) {v w : Value} (hvw : Value.Rel σ v w) :
    Tracks L σ (fun _ => Eq) (store name v) (store name w) :=
  .of_modify fun _ _ hm hle => ⟨hm.withScope (hm.scope.store name (hvw.mono hle)), .refl _⟩

theorem tracks_storeElement (name : String) (selector : Selector)
    (hselector : selector.timed → L.timely) {v w : Value} (hvw : Value.Rel σ v w) :
    Tracks L σ (fun _ => Eq) (storeElement name selector v)
      (storeElement name selector w) := by
  have hplace : Tracks L σ Slot.Rel (slot name selector) (slot name selector) :=
    slot_eq name selector ▸ .of_evaluate fun _ _ _ h _ => h.slot name selector hselector
  refine .of_bind hplace fun τ slot slot' hτ hslot => .of_modify fun m m' hm hle => ?_
  have hwrite := hm.heap.write (hslot.mono hle) (hvw.mono (hτ.trans hle))
  exact ⟨hm.withHeap hwrite (m.heap.grows_write slot v), m.heap.grows_write slot v⟩

/-! ### Places -/

theorem tracks_jump {frame frame' : Frame} (h : L.Frames frame frame') :
    Tracks L σ (fun _ => Eq) (jump frame) (jump frame') := by
  refine .of_modify fun m m' hm _ => ⟨?_, .refl _⟩
  rw [h.addr]
  exact (hm.withCode (.some h.block)).update (f := fun x => { x with pc := frame'.addr })
    (fun _ _ => rfl) rfl

theorem tracks_setPc (pc : Address) : Tracks L σ (fun _ => Eq)
    (modify fun m => { m with pc := pc }) (modify fun m => { m with pc := pc }) :=
  .of_update (fun _ _ => rfl) fun _ => rfl

theorem tracks_terminate : Tracks L σ (fun _ => Eq) terminate terminate := by
  refine .of_modify fun m m' hm _ => ⟨?_, .refl _⟩
  have hcleared := ((hm.withCode .none).withResume .none).withReturns hm.returns.clear
  exact hcleared.withStatus .stopped

theorem tracks_call {frame frame' : Frame} (h : L.Frames frame frame') :
    Tracks L σ (fun _ => Eq) (call frame) (call frame') := by
  refine .of_get fun m m' hm _ => ?_
  rw [hm.pc_eq, hm.returns.overflow?_eq]
  rcases optionRel_cases hm.code with ⟨hcode, hcode'⟩ | ⟨block, block', hcode, hcode', hblock⟩
  · rw [hcode, hcode']
    exact .of_throw _
  · rw [hcode, hcode']
    cases m.returns.overflow? with
    | some e => exact .of_throw e
    | none =>
      refine .of_bind (R := fun _ => Eq) (.of_modify fun n n' hn _ => ⟨?_, .refl _⟩)
        fun _ _ _ _ _ => tracks_jump h
      exact hn.withReturns (hn.returns.add ⟨hblock, rfl⟩)

theorem tracks_goBack : Tracks L σ (fun _ => Eq) goBack goBack := by
  refine .of_get fun m m' hm _ => ?_
  rcases optionRel_cases hm.returns.top? with ⟨htop, htop'⟩ | ⟨frame, frame', htop, htop', h⟩
  · rw [htop, htop']
    exact tracks_terminate
  · rw [htop, htop']
    refine .of_bind (R := fun _ => Eq) (.of_modify fun n n' hn _ => ⟨?_, .refl _⟩)
      fun _ _ _ _ _ => tracks_jump h
    exact hn.withReturns hn.returns.pop

theorem tracks_labelFrame (name : String) :
    Tracks L σ (fun _ => L.Frames) (labelFrame name) (labelFrame name) := by
  refine .of_get fun m m' hm _ => ?_
  rcases optionRel_cases (L.numbering.label? hm.program name) with
    ⟨hlabel, hlabel'⟩ | ⟨frame, frame', hlabel, hlabel', h⟩
  · rw [hlabel, hlabel']
    exact .of_throw _
  · rw [hlabel, hlabel']
    exact .of_pure fun _ _ => h

theorem tracks_labelOf (target : Expr) (htarget : target.timed → L.timely) :
    Tracks L σ (fun _ => Eq) (labelOf target) (labelOf target) := by
  refine .of_get fun m m' hm _ => ?_
  have hcontains : (fun name => !m'.scope.contains name) = fun name => !m.scope.contains name := by
    funext name
    rw [hm.scope.contains_eq]
  rw [hcontains]
  split
  · exact .of_pure fun _ _ => rfl
  · refine .of_bind (tracks_eval target htarget) fun τ v w _ hvw => ?_
    cases hvw with
    | scalar hv =>
      cases v with
      | number => exact .of_pure fun _ _ => rfl
      | text => exact .of_pure fun _ _ => rfl
      | name => exact .of_pure fun _ _ => rfl
      | array => cases hv
      | map => cases hv
      | _ => exact .of_throw _
    | array => exact .of_throw _
    | map => exact .of_throw _

theorem tracks_target (e : Expr) (he : e.timed → L.timely) :
    Tracks L σ (fun _ => L.Frames) (target e) (target e) := by
  refine .of_bind (tracks_labelOf e he) ?_
  rintro τ name _ - rfl
  exact .of_located _ (tracks_labelFrame name)

theorem tracks_choose (index : Expr) (hindex : index.timed → L.timely) (labels : List String) :
    Tracks L σ (fun _ => L.Frames) (choose index labels) (choose index labels) := by
  refine .of_bind (tracks_evalNumber index hindex) ?_
  rintro τ x _ - rfl
  dsimp only
  split
  · exact tracks_labelFrame _
  · exact .of_throw _

/-! ### Loops and data -/

theorem tracks_guard (g : Option Guard) (hg : g.any Guard.timed → L.timely) :
    Tracks L σ (fun _ => Eq) (guard g) (guard g) := by
  cases g with
  | none => exact .of_pure fun _ _ => rfl
  | some g =>
    cases g with
    | «while» e =>
      refine .of_bind (tracks_eval e hg) fun τ v w _ hvw => ?_
      rw [hvw.isTruthy_eq]
      exact .of_pure fun _ _ => rfl
    | «until» e =>
      refine .of_bind (tracks_eval e hg) fun τ v w _ hvw => ?_
      rw [hvw.isTruthy_eq]
      exact .of_pure fun _ _ => rfl

theorem tracks_counter (pos : Pos) (var : String) :
    Tracks L σ (fun _ => Eq) (counter pos var) (counter pos var) := by
  refine .of_get fun m m' hm _ => ?_
  have hfetch := hm.scope.fetch var
  revert hfetch
  generalize m.scope.fetch var = x
  generalize m'.scope.fetch var = y
  intro hfetch
  cases hfetch with
  | none => exact .of_throw _
  | @some v w hvw =>
    cases hvw with
    | scalar hv =>
      cases v with
      | number => exact .of_pure fun _ _ => rfl
      | array => cases hv
      | map => cases hv
      | _ => exact .of_throw _
    | array => exact .of_throw _
    | map => exact .of_throw _

theorem tracks_stride (step : Option Expr) (hstep : step.any Expr.timed → L.timely) :
    Tracks L σ (fun _ => Eq) (stride step) (stride step) := by
  cases step with
  | none => exact .of_pure fun _ _ => rfl
  | some e => exact tracks_evalNumber e hstep

theorem tracks_anotherPass (pos : Pos) (var : String) (limit : Expr)
    (hlimit : limit.timed → L.timely) (step : Option Expr) (hstep : step.any Expr.timed → L.timely) :
    Tracks L σ (fun _ => Eq) (anotherPass pos var limit step)
      (anotherPass pos var limit step) := by
  refine .of_bind (tracks_counter pos var) ?_
  rintro _ current _ - rfl
  refine .of_bind (tracks_stride step hstep) ?_
  rintro _ stride _ - rfl
  refine .of_bind (tracks_store var (.scalar rfl)) fun _ _ _ _ _ => ?_
  refine .of_bind (tracks_evalNumber limit hlimit) ?_
  rintro _ x _ - rfl
  refine .of_get fun m m' hm _ => ?_
  rw [hm.config_eq]
  exact .of_pure fun _ _ => rfl

theorem tracks_readAll (targets : List Target) (htargets : targets.any Target.timed → L.timely) :
    Tracks L σ (fun _ => Eq) (readAll targets) (readAll targets) := by
  induction targets generalizing σ with
  | nil => exact .of_pure fun _ _ => rfl
  | cons target targets ih =>
    rw [List.any_cons, Bool.or_eq_true] at htargets
    have hrest {τ : Renaming} := ih (σ := τ) fun ht => htargets (.inr ht)
    refine .of_get fun m m' hm _ => ?_
    refine .of_bind (R := fun τ r r' => Value.Rel τ r.1 r'.1 ∧ DataQueue.Rel τ r.2 r'.2)
      (.of_except fun τ hle => (hm.data.mono hle).read) ?_
    rintro τ ⟨v, data⟩ ⟨w, data'⟩ - ⟨hvw, hdata⟩
    refine .of_bind (.of_modify fun m m' hm hle => ⟨hm.withData (hdata.mono hle), .refl _⟩)
      fun τ' _ _ hτ' _ => ?_
    cases target with
    | var pos name =>
      exact .of_bind (tracks_store name (hvw.mono hτ')) fun _ _ _ _ _ => hrest
    | element pos name selector =>
      have hselector : selector.timed → L.timely := fun ht => htargets (.inl ht)
      exact .of_bind (.of_located _ (tracks_storeElement name selector hselector (hvw.mono hτ')))
        fun _ _ _ _ _ => hrest

/-! ### Commands -/

theorem tracks_print {text text' : Machine → String}
    (h : ∀ m m' : Machine, m.Twins L m' → σ.Le (L.below m.heap) → text m = text' m') :
    Tracks L σ (fun _ => Eq) (modify fun m => m.print (text m))
      (modify fun m => m.print (text' m)) := by
  refine .of_modify fun m m' hm hle => ⟨?_, .refl _⟩
  rw [h m m' hm hle]
  exact hm.print _

theorem tracks_listLines (first : Nat) (last : Option Nat) :
    Tracks L σ (fun _ => Eq) (listLines first last) (listLines first last) := by
  refine tracks_print fun m m' hm _ => ?_
  rw [Command.listed, Command.listed, hm.listing_eq]

theorem tracks_lineNumber {v w : Value} (hvw : Value.Rel σ v w) :
    Tracks L σ (fun _ => Eq) (lineNumber v) (lineNumber w) := by
  refine .of_get fun m m' hm hle => ?_
  exact .of_except fun _ _ => .of_eq (hm.heap.rel.toIndex_eq (hvw.mono hle))

theorem tracks_sleep (htimely : L.timely) {args args' : List Value}
    (hargs : List.Forall₂ (Value.Rel σ) args args') :
    Tracks L σ (fun _ => Eq) (sleep args) (sleep args') := by
  cases hargs with
  | nil => exact .of_throw _
  | cons hvw hrest =>
    cases hrest with
    | cons => exact .of_throw _
    | nil =>
      refine .of_get fun m m' hm hle => ?_
      refine .of_bind (.of_except fun _ _ => .of_eq (hm.heap.rel.toNumber_eq (hvw.mono hle))) ?_
      rintro _ seconds _ - rfl
      refine .of_bind (.of_except fun _ _ => .of_eq rfl) ?_
      rintro _ nanos _ - rfl
      refine .of_modify fun m m' hm _ => ⟨?_, .refl _⟩
      have hwake : m.clock.nanos + nanos = m'.clock.nanos + nanos := by rw [hm.clock htimely]
      rw [hwake]
      exact hm.update (f := fun x => { x with status := _ }) (fun _ _ => rfl) rfl

theorem tracks_poke {args args' : List Value} (hargs : List.Forall₂ (Value.Rel σ) args args') :
    Tracks L σ (fun _ => Eq) (poke args) (poke args') := by
  cases hargs with
  | nil => exact .of_throw _
  | cons hvw hrest =>
    cases hrest with
    | nil => exact .of_throw _
    | cons hvw' hrest =>
      cases hrest with
      | cons => exact .of_throw _
      | nil =>
        refine .of_get fun m m' hm hle => ?_
        refine .of_bind (.of_except fun _ _ => .of_eq (hm.heap.rel.toIndex_eq (hvw.mono hle))) ?_
        rintro τ address _ hτ rfl
        refine .of_get fun m m' hm hle' => ?_
        refine .of_bind (.of_except fun _ _ =>
          .of_eq (hm.heap.rel.toNumber_eq (hvw'.mono (hle.trans (hτ.trans hle'))))) ?_
        rintro _ value _ - rfl
        refine .of_bind (.of_except fun _ _ => .of_eq rfl) ?_
        rintro _ byte _ - rfl
        exact .of_update (fun _ _ => rfl) fun _ => rfl

theorem tracks_list {args args' : List Value} (hargs : List.Forall₂ (Value.Rel σ) args args') :
    Tracks L σ (fun _ => Eq) (list args) (list args') := by
  cases hargs with
  | nil => exact tracks_listLines 0 none
  | cons hvw hrest =>
    cases hrest with
    | nil =>
      refine .of_bind (tracks_lineNumber hvw) ?_
      rintro _ first _ - rfl
      exact tracks_listLines first none
    | cons hvw' hrest =>
      cases hrest with
      | cons => exact .of_throw _
      | nil =>
        refine .of_bind (tracks_lineNumber hvw) ?_
        rintro _ first _ hτ rfl
        refine .of_bind (tracks_lineNumber (hvw'.mono hτ)) ?_
        rintro _ last _ - rfl
        exact tracks_listLines first (some last)

theorem tracks_listTo {args args' : List Value} (hargs : List.Forall₂ (Value.Rel σ) args args') :
    Tracks L σ (fun _ => Eq) (listTo args) (listTo args') := by
  cases hargs with
  | nil => exact tracks_listLines 0 none
  | cons hvw hrest =>
    cases hrest with
    | cons => exact .of_throw _
    | nil =>
      refine .of_bind (tracks_lineNumber hvw) ?_
      rintro _ last _ - rfl
      exact tracks_listLines 0 (some last)

theorem tracks_help {args args' : List Value} (hargs : List.Forall₂ (Value.Rel σ) args args') :
    Tracks L σ (fun _ => Eq) (help args) (help args') := by
  have hentry (m m' : Machine) (hm : m.Twins L m') (name : String) :
      Command.helpOn m name = Command.helpOn m' name := by
    have hcommands : m'.commands = m.commands := congrArg (·.commands) hm.rest
    have hfunctions : m'.functions = m.functions := congrArg (·.functions) hm.rest
    rw [Command.helpOn, Command.helpOn, Command.entry?, Command.entry?, hcommands, hfunctions]
  have hother {v w : Value} (hvw : Value.Rel σ v w) : Tracks L σ (fun _ => Eq)
      (do throw (.typeMismatch ((← get).heap.display v ++ " is not a name")) : Action Unit)
      (do throw (.typeMismatch ((← get).heap.display w ++ " is not a name")) : Action Unit) := by
    refine .of_get fun m m' hm hle => ?_
    rw [hm.heap.rel.display_eq (hvw.mono hle)]
    exact .of_throw _
  cases hargs with
  | nil =>
    refine tracks_print fun m m' hm _ => ?_
    have hcommands : m'.commands = m.commands := congrArg (·.commands) hm.rest
    have hfunctions : m'.functions = m.functions := congrArg (·.functions) hm.rest
    rw [Command.helpOverview, Command.helpOverview, hcommands, hfunctions]
  | @cons v w _ _ hvw hrest =>
    cases hvw with
    | scalar hv =>
      cases v with
      | name s => exact tracks_print fun m m' hm _ => hentry m m' hm _
      | text s => exact tracks_print fun m m' hm _ => hentry m m' hm _
      | _ => exact hother (.scalar hv)
    | array h => exact hother (.array h)
    | map h => exact hother (.map h)

theorem tracks_compile (source : String) {parent parent' : Option Frame}
    (hparent : Option.Rel L.Frames parent parent') :
    Tracks L σ (fun _ => L.numbering.block) (ExceptT.mk fun m => m.compile source parent)
      (ExceptT.mk fun m => m.compile source parent') := by
  intro m m' hm _
  rw [run_mk, run_mk]
  unfold Machine.compile Program.compile
  cases parse source with
  | error e => exact ⟨.error rfl, hm, .refl _⟩
  | ok code =>
    have hscalar : ∀ v ∈ code.data.map Constant.value, Value.Rel (L.below m.heap) v v := by
      intro v hv
      obtain ⟨c, -, rfl⟩ := List.mem_map.mp hv
      cases c <;> exact .scalar rfl
    have hdata := hm.withData (hm.data.pushAll (List.forall₂_same.mpr hscalar))
    have hprogram := L.numbering.extend hm.program hparent code.statements source code.labels
    exact ⟨.ok (L.numbering.read hm.program hparent code.statements source),
      hdata.withProgram hprogram, .refl _⟩

/-- What is left of a machine when its program goes. -/
def withoutProgram (m : Machine) : Machine :=
  { m with
    scope := m.scope.clear, memory := ∅, data := {}, program := m.program.clear,
    returns := m.returns.clear, resume := none }

theorem twins_withoutProgram {m m' : Machine} (hm : m.Twins L m') :
    (withoutProgram m).Twins L (withoutProgram m') := by
  have hcleared := (hm.withScope hm.scope.clear).withData .empty
  have hforgot := (hcleared.withProgram (L.numbering.clear hm.program)).withResume .none
  exact (hforgot.withReturns hm.returns.clear).update (f := fun x => { x with memory := ∅ })
    (fun _ _ => rfl) rfl

theorem tracks_compileListing : Tracks L σ (fun _ => L.numbering.block)
    (ExceptT.mk Machine.compileListing) (ExceptT.mk Machine.compileListing) := by
  intro m m' hm hle
  have hrun (x : Machine) : (ExceptT.mk Machine.compileListing : Action Block).run x =
      (ExceptT.mk fun y => y.compile x.listing.source none : Action Block).run
        (withoutProgram x) := rfl
  rw [hrun, hrun, hm.listing_eq]
  exact tracks_compile m.listing.source .none _ _ (twins_withoutProgram hm) hle

theorem twins_run {m m' : Machine} (hm : m.Twins L m') {block block' : Block}
    (h : L.numbering.block block block') (addr : Address) :
    (m.run block addr).Twins L (m'.run block' addr) :=
  (hm.withCode (.some h)).update (f := fun x => { x with pc := addr, status := .running })
    (fun _ _ => rfl) rfl

theorem tracks_restart (label : Option String) :
    Tracks L σ (fun _ => Eq) (restart label) (restart label) := by
  refine .of_bind tracks_compileListing fun _ block block' _ hblock => ?_
  refine .of_modify fun m m' hm _ => ?_
  have hlabel : Option.Rel L.Frames (label.bind m.program.label?) (label.bind m'.program.label?) := by
    cases label with
    | none => exact .none
    | some name => exact L.numbering.label? hm.program name
  rcases optionRel_cases hlabel with ⟨hnone, hnone'⟩ | ⟨frame, frame', hsome, hsome', h⟩
  · rw [hnone, hnone']
    exact ⟨twins_run hm hblock 0, .refl _⟩
  · rw [hsome, hsome']
    dsimp only
    rw [← h.addr]
    exact ⟨twins_run hm h.block _, .refl _⟩

theorem tracks_resume : Tracks L σ (fun _ => Eq) resume resume := by
  refine .of_get fun m m' hm _ => ?_
  rcases optionRel_cases hm.resume with ⟨hresume, hresume'⟩ | ⟨p, p', hresume, hresume', h⟩
  · rw [hresume, hresume']
    exact .of_throw _
  · rw [hresume, hresume']
    refine .of_modify fun n n' hn _ => ⟨?_, .refl _⟩
    rw [h.1.addr, h.2]
    exact ((hn.withCode (.some h.1.block)).withResume .none).update
      (f := fun x => { x with pc := p'.1.addr, status := p'.2 }) (fun _ _ => rfl) rfl

theorem tracks_announce {args args' : List Value} (hargs : List.Forall₂ (Value.Rel σ) args args')
    (event : String → Event) : Tracks L σ (fun _ => Eq)
      (do let name ← ofExcept (Command.fileName (← get).heap args)
          modify (·.pushEvent (event name)))
      (do let name ← ofExcept (Command.fileName (← get).heap args')
          modify (·.pushEvent (event name))) := by
  refine .of_get fun m m' hm hle => ?_
  rw [hm.heap.rel.fileName_eq (hargs.imp fun _ _ => .mono hle)]
  refine .of_bind (.of_except fun _ _ => .of_eq rfl) ?_
  rintro _ name _ - rfl
  exact .of_update (fun _ _ => rfl) fun _ => rfl

theorem tracks_builtin {args args' : List Value} (hargs : List.Forall₂ (Value.Rel σ) args args')
    (command : Builtin) (hcommand : command = .sleep → L.timely) :
    Tracks L σ (fun _ => Eq) (builtin args command) (builtin args' command) := by
  have hargs_mono {τ : Renaming} (hle : σ.Le τ) : List.Forall₂ (Value.Rel τ) args args' :=
    hargs.imp fun _ _ => .mono hle
  cases command with
  | print => exact tracks_print fun m m' hm hle => hm.heap.rel.printed_eq (hargs_mono hle)
  | input =>
    refine .of_modify fun m m' hm hle => ⟨?_, .refl _⟩
    rw [hm.heap.rel.promptOf_eq (hargs_mono hle), Command.targetsOf_eq hargs]
    exact hm.update (f := fun x => { x with status := _ }) (fun _ _ => rfl) rfl
  | cls => exact .of_update (fun _ _ => rfl) fun _ => rfl
  | sleep => exact tracks_sleep (hcommand rfl) hargs
  | restore => exact .of_modify fun m m' hm _ => ⟨hm.withData hm.data.rewind, .refl _⟩
  | help => exact tracks_help hargs
  | env =>
    refine tracks_print fun m m' hm hle => ?_
    have hfilter : args.head?.elim "" (fun v => Text.fold (m.heap.display v)) =
        args'.head?.elim "" fun v => Text.fold (m'.heap.display v) := by
      cases hargs_mono hle with
      | nil => rfl
      | cons hvw => exact congrArg Text.fold (hm.heap.rel.display_eq hvw)
    rw [hfilter]
    exact hm.bindings_eq _
  | list => exact tracks_list hargs
  | listTo => exact tracks_listTo hargs
  | new =>
    refine .of_modify fun m m' hm _ => ⟨?_, .refl _⟩
    have hcleared := (hm.withScope hm.scope.clear).withData .empty
    exact ((hcleared.withProgram (L.numbering.clear hm.program)).withResume .none).update
      (f := fun x => { x with memory := ∅, listing := {} }) (fun _ _ => rfl) rfl
  | clear =>
    refine .of_modify fun m m' hm _ => ⟨?_, .refl _⟩
    exact (hm.withScope hm.scope.clear).update (f := fun x => { x with memory := ∅ })
      (fun _ _ => rfl) rfl
  | run =>
    refine .of_get fun m m' hm hle => ?_
    rw [hm.heap.rel.startLabel_eq (hargs_mono hle)]
    refine .of_bind (.of_except fun _ _ => .of_eq rfl) ?_
    rintro _ label _ - rfl
    exact tracks_restart label
  | cont => exact tracks_resume
  | poke => exact tracks_poke hargs
  | traceOn => exact .of_update (fun _ _ => rfl) fun _ => rfl
  | traceOff => exact .of_update (fun _ _ => rfl) fun _ => rfl
  | load => exact tracks_announce hargs .load
  | save => exact tracks_announce hargs .save

theorem tracks_grant {requests requests' : List HostRequest}
    (hrequests : List.Forall₂ (HostRequest.Rel σ) requests requests') :
    Tracks L σ (fun _ => Eq) (modify fun m => requests.foldl (fun m r => grant r m) m)
      (modify fun m => requests'.foldl (fun m r => grant r m) m) := by
  refine .of_modify fun m m' hm hle => ?_
  induction hrequests generalizing m m' with
  | nil => exact ⟨hm, .refl _⟩
  | cons hrequest _ ih =>
    cases hrequest with
    | print text => exact ih _ _ (hm.print text) hle
    | store name hvw => exact ih _ _ (hm.withScope (hm.scope.store _ (hvw.mono hle))) hle

theorem tracks_perform {c : CommandAction} (hc : c.Uniform L.timely) {args args' : List Value}
    (hargs : List.Forall₂ (Value.Rel σ) args args') :
    Tracks L σ (fun _ => Eq) (perform c args) (perform c args') := by
  cases c with
  | builtin command => exact tracks_builtin hargs command hc
  | host handler =>
    refine .of_get fun m m' hm hle => ?_
    have hrequests := hc hm.heap.rel (hargs.imp fun _ _ => .mono hle)
    refine .of_bind (R := fun τ => List.Forall₂ (HostRequest.Rel τ))
      (.of_except fun τ hτ => ?_) fun τ _ _ _ hgranted => tracks_grant hgranted
    revert hrequests
    generalize handler m.heap args = x
    generalize handler m'.heap args' = y
    intro hrequests
    cases hrequests with
    | ok h => exact .ok (h.imp fun _ _ => .mono hτ)
    | error h => exact .error h

/-! ### Statements -/

theorem tracks_command (pos : Pos) (name : String) (hname : name ∈ timedNames → L.timely)
    (args : Option Expr) (hargs : args.any Expr.timed → L.timely) (literalNames : Bool) :
    Tracks L σ (fun _ => Eq) (command pos name args literalNames)
      (command pos name args literalNames) := by
  refine .of_get fun m m' hm _ => ?_
  have hcommands : m'.commands = m.commands := congrArg (·.commands) hm.rest
  rw [hcommands]
  cases hc : m.commands[name]? with
  | none => exact .of_throw _
  | some c =>
    refine .of_bind ((tracks_evalArgs args hargs).of_naming literalNames) fun τ vs ws _ hvs => ?_
    exact .of_located _ (tracks_perform ((hm.uniform.commands name c hc).mono hname) hvs)

theorem run_dim (name : String) (sizes : List Value) (m : Machine) :
    (do let (array, heap) ← ofExcept ((← get).heap.dim sizes)
        modify fun m => { m with heap := heap, scope := m.scope.store name array } :
          Action Unit).run m = match m.heap.dim sizes with
      | .ok (array, heap) => (.ok (), { m with heap := heap, scope := m.scope.store name array })
      | .error e => (.error e, m) := by
  rw [run_bind, run_get]
  dsimp only
  rw [run_bind]
  generalize m.heap.dim sizes = x
  cases x <;> rfl

theorem tracks_dim (name : String) {sizes sizes' : List Value}
    (hsizes : List.Forall₂ (Value.Rel σ) sizes sizes') : Tracks L σ (fun _ => Eq)
    (do let (array, heap) ← ofExcept ((← get).heap.dim sizes)
        modify fun m => { m with heap := heap, scope := m.scope.store name array })
    (do let (array, heap) ← ofExcept ((← get).heap.dim sizes')
        modify fun m => { m with heap := heap, scope := m.scope.store name array }) := by
  intro m m' hm hle
  have hdim := hm.heap.dim (hsizes.imp fun _ _ => .mono hle)
  rw [run_dim, run_dim]
  revert hdim
  generalize m.heap.dim sizes = x
  generalize m'.heap.dim sizes' = y
  intro hdim
  cases hdim with
  | ok h =>
    obtain ⟨htwins, hgrows, hvalue⟩ := h
    have hheap := hm.withHeap htwins hgrows
    exact ⟨.ok rfl, hheap.withScope (hheap.scope.store name hvalue), hgrows⟩
  | error he => exact ⟨.error he, hm, .refl _⟩

theorem tracks_exec (s : Stmt Address) (hs : s.timed → L.timely) :
    Tracks L σ (fun _ => Eq) (exec s) (exec s) := by
  induction s generalizing σ with
  | command pos name args literal =>
    rw [Stmt.timed, Bool.or_eq_true, List.contains_iff_mem] at hs
    exact tracks_command pos name (fun ht => hs (.inl ht)) args (fun ht => hs (.inr ht)) literal
  | assign pos name e =>
    exact .of_bind (tracks_eval e hs) fun _ _ _ _ hvw => tracks_store name hvw
  | assignElement pos name selector e =>
    rw [Stmt.timed, Bool.or_eq_true] at hs
    exact .of_bind (tracks_eval e fun ht => hs (.inr ht)) fun _ _ _ _ hvw =>
      tracks_storeElement name selector (fun ht => hs (.inl ht)) hvw
  | dim pos name sizes =>
    exact .of_bind (evalAll_eq sizes ▸ .of_evaluate fun _ _ _ h _ => h.evalAll sizes hs)
      fun _ _ _ _ hsizes => tracks_dim name hsizes
  | map pos name =>
    refine .of_modify fun m m' hm _ => ?_
    obtain ⟨htwins, hvalue⟩ := hm.heap.newMap
    have hgrows := m.heap.newMap_extends.grows
    have hheap := hm.withHeap htwins hgrows
    exact ⟨hheap.withScope (hheap.scope.store name hvalue), hgrows⟩
  | when pos condition taken ih =>
    rw [Stmt.timed, Bool.or_eq_true] at hs
    refine .of_bind (tracks_eval condition fun ht => hs (.inl ht)) fun τ v w _ hvw => ?_
    rw [hvw.isTruthy_eq]
    split
    · exact ih fun ht => hs (.inr ht)
    · exact .of_pure fun _ _ => rfl
  | choose pos condition taken otherwise ih ih' =>
    rw [Stmt.timed, Bool.or_eq_true, Bool.or_eq_true] at hs
    refine .of_bind (tracks_eval condition fun ht => hs (.inl (.inl ht))) fun τ v w _ hvw => ?_
    rw [hvw.isTruthy_eq]
    split
    · exact ih fun ht => hs (.inl (.inr ht))
    · exact ih' fun ht => hs (.inr ht)
  | goto pos e =>
    exact .of_bind (tracks_target e hs) fun _ _ _ _ h => tracks_jump h
  | gosub pos e =>
    exact .of_bind (tracks_target e hs) fun _ _ _ _ h => tracks_call h
  | onGoto pos index labels =>
    exact .of_bind (tracks_choose index hs labels) fun _ _ _ _ h => tracks_jump h
  | onGosub pos index labels =>
    exact .of_bind (tracks_choose index hs labels) fun _ _ _ _ h => tracks_call h
  | «for» pos header =>
    exact .of_bind (tracks_eval header.start hs) fun _ _ _ _ hvw => tracks_store header.var hvw
  | next pos header =>
    rw [Stmt.timed, Bool.or_eq_true] at hs
    change Tracks L σ _ (advanceLoop pos header) (advanceLoop pos header)
    rw [advanceLoop_eq]
    refine .of_bind
      (tracks_anotherPass _ _ _ (fun ht => hs (.inl ht)) _ fun ht => hs (.inr ht)) ?_
    rintro _ again _ - rfl
    split
    · exact tracks_setPc _
    · exact .of_pure fun _ _ => rfl
  | «do» pos g header =>
    refine .of_bind (tracks_guard g hs) ?_
    rintro _ again _ - rfl
    split
    · exact tracks_setPc _
    · exact .of_pure fun _ _ => rfl
  | loop pos g header =>
    refine .of_bind (tracks_guard g hs) ?_
    rintro _ again _ - rfl
    split
    · exact tracks_setPc _
    · exact .of_pure fun _ _ => rfl
  | leave pos exit => exact tracks_setPc exit
  | read pos targets => exact tracks_readAll targets hs
  | «return» pos => exact tracks_goBack
  | finish pos => exact tracks_terminate

end Action

end LineBasic
