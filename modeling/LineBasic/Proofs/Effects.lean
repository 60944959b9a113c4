import LineBasic.Machine.Step
import LineBasic.Proofs.Environments

/-!
# What statements see and what they do

A statement sees a machine except for its budgets, the outputs that were counted and the events that
wait for the host; most statements do not see the place of the next statement either. What a
statement sees decides its result, what it changes and what it has to say to the host: some texts
and at most one other event after them, and nothing at all if it fails.
-/

namespace LineBasic

set_option autoImplicit false

/-- What no statement changes. -/
structure Fixtures where
  signedStep : Bool
  commands : Std.TreeMap String Command
  functions : Std.TreeMap String Function
  clock : Clock

/-- What statements leave alone that neither move the machine nor replace its programs. -/
structure Ground extends Fixtures where
  resume : Option (Frame × Status)
  program : Program
  listing : Listing
  literalNames : Bool

/-- The part of a machine that statements see which do not move it. -/
structure Sight extends Ground where
  scope : Scope
  data : DataQueue
  memory : Memory
  tracing : Bool
  heap : Heap
  random : Random

/-- Where a machine stands in its program. -/
structure Place where
  code : Option Block
  pc : Address
  returns : BoundedStack Frame
  status : Status

/-- A machine of that sight whose hidden parts are blank. -/
def Sight.machine (s : Sight) : Machine :=
  { s with
    code := none, pc := 0, returns := Machine.noReturns, status := .stopped
    config := { signedStep := s.signedStep }, outputs := 0, pending := [] }

/-- Whether an event is neither text nor a mere sign of life. -/
def Event.isMark : Event → Bool
  | print _ | running => false
  | _ => true

/-- What a machine says to its host in one go. -/
structure Utterance where
  texts : List String := []
  /-- An event after the texts. -/
  mark : Option Event := none
  /-- How many outputs this counts as. -/
  outputs : Nat := 0
  isMark_of_mark : ∀ e, mark = some e → e.isMark := by simp

namespace Utterance

def silence : Utterance := {}

def ofTexts (texts : List String) : Utterance :=
  { texts := texts, outputs := texts.length }

def ofMark (e : Event) (he : e.isMark) (outputs : Nat) : Utterance :=
  { mark := some e, outputs := outputs, isMark_of_mark := by rintro _ ⟨⟩; exact he }

/-- The events that wait after it. -/
def extend (u : Utterance) (pending : List Event) : List Event :=
  u.texts.foldl Event.appendText pending ++ u.mark.toList

end Utterance

namespace Machine

def sight (m : Machine) : Sight :=
  { m.toSnapshot with
    heap := m.heap, signedStep := m.config.signedStep, commands := m.commands,
    functions := m.functions, random := m.random, clock := m.clock,
    literalNames := m.literalNames }

def withSight (m : Machine) (s : Sight) : Machine :=
  { m with
    scope := s.scope, data := s.data, memory := s.memory, resume := s.resume,
    program := s.program, listing := s.listing, tracing := s.tracing, heap := s.heap,
    config := { m.config with signedStep := s.signedStep }, commands := s.commands,
    functions := s.functions, random := s.random, clock := s.clock,
    literalNames := s.literalNames }

def place (m : Machine) : Place :=
  ⟨m.code, m.pc, m.returns, m.status⟩

def withPlace (m : Machine) (p : Place) : Machine :=
  { m with code := p.code, pc := p.pc, returns := p.returns, status := p.status }

def utter (m : Machine) (u : Utterance) : Machine :=
  { m with
    outputs := m.outputs + u.outputs
    pending := u.extend m.pending }

@[simp] theorem utter_silence (m : Machine) : m.utter .silence = m := by
  simp [utter, Utterance.silence, Utterance.extend]

theorem utter_text (m : Machine) (s : String) : m.utter (.ofTexts [s]) = m.print s := by
  simp [utter, Utterance.ofTexts, Utterance.extend, print]

theorem utter_texts_cons (m : Machine) (s : String) (texts : List String) :
    m.utter (.ofTexts (s :: texts)) = (m.print s).utter (.ofTexts texts) := by
  simp [utter, Utterance.ofTexts, Utterance.extend, print, Nat.add_comm texts.length, Nat.add_assoc]

end Machine

/-- A part of a machine that can be read and, but for what is fixed, replaced. -/
structure Aspect (σ : Type) where
  see : Machine → σ
  put : Machine → σ → Machine
  /-- A machine that looks so and is blank otherwise. -/
  bare : σ → Machine
  Fixed : Type
  fixed : σ → Fixed
  see_put : ∀ m s, see (put m s) = s
  put_put : ∀ m s t, put (put m s) t = put m t
  put_see : ∀ m, put m (see m) = m

namespace Aspect

/-- What every statement sees. -/
def inner : Aspect Sight where
  see := Machine.sight
  put := Machine.withSight
  bare := Sight.machine
  Fixed := Fixtures
  fixed s := s.toFixtures
  see_put _ _ := rfl
  put_put _ _ _ := rfl
  put_see _ := rfl

/-- What every statement sees, for those that write no element of a container. -/
def level : Aspect Sight :=
  { inner with
    Fixed := Fixtures × Heap
    fixed := fun s => (s.toFixtures, s.heap) }

/-- What every statement sees, for those that keep the machine on its ground. -/
def rooted : Aspect Sight :=
  { inner with
    Fixed := Ground
    fixed := Sight.toGround }

/-- What every statement sees, for those that do both. -/
def still : Aspect Sight :=
  { inner with
    Fixed := Ground × Heap
    fixed := fun s => (s.toGround, s.heap) }

/-- What statements see that move the machine. -/
def outer : Aspect (Sight × Place) where
  see m := (m.sight, m.place)
  put m v := (m.withSight v.1).withPlace v.2
  bare v := v.1.machine.withPlace v.2
  Fixed := Fixtures
  fixed v := v.1.toFixtures
  see_put _ _ := rfl
  put_put _ _ _ := rfl
  put_see _ := rfl

/-- What statements see that move the machine, for those that leave the containers alone. -/
def roaming : Aspect (Sight × Place) :=
  { outer with
    Fixed := Fixtures × Heap
    fixed := fun v => (v.1.toFixtures, v.1.heap) }

/-- An aspect that shows what every statement sees. -/
class Inward (L : Aspect Sight) : Prop where
  see_eq : L.see = Machine.sight
  put_eq : L.put = Machine.withSight
  fixtures_eq : ∀ s t : Sight, L.fixed s = L.fixed t → s.toFixtures = t.toFixtures

instance : Inward inner :=
  ⟨rfl, rfl, fun _ _ => id⟩

instance : Inward level :=
  ⟨rfl, rfl, fun _ _ => congrArg Prod.fst⟩

instance : Inward rooted :=
  ⟨rfl, rfl, fun _ _ => congrArg Ground.toFixtures⟩

instance : Inward still :=
  ⟨rfl, rfl, fun _ _ => congrArg fun f : Ground × Heap => f.1.toFixtures⟩

end Aspect

/-- Whether a statement is neither made of others nor a command and never moves the machine. -/
def Stmt.stays : Stmt Address → Bool
  | .assign .. | .assignElement .. | .dim .. | .map .. | .for .. | .read .. => true
  | _ => false

/-- Whether a statement is neither made of others nor a command. -/
def Stmt.isSimple : Stmt Address → Bool
  | .command .. | .when .. | .choose .. => false
  | _ => true

/-- Whether a statement is neither made of others nor a command and changes no container. -/
def Stmt.isLight : Stmt Address → Bool
  | .assignElement .. | .dim .. | .map .. | .read .. => false
  | s => s.isSimple

/-- Whether a built-in command leaves the machine at its place. -/
def Builtin.stays : Builtin → Bool
  | .run | .cont | .input | .sleep => false
  | _ => true

/-- Whether a command leaves the machine at its place. -/
def CommandAction.stays : CommandAction → Bool
  | .builtin b => b.stays
  | .host _ => true

/-- Whether a built-in command leaves the block that runs or forgets what was suspended. -/
def Builtin.departs : Builtin → Bool
  | .run | .new | .cont => true
  | _ => false

def CommandAction.departs : CommandAction → Bool
  | .builtin b => b.departs
  | .host _ => false

/-- The text that a request prints. -/
def HostRequest.text? : HostRequest → Option String
  | .print s => some s
  | .store .. => none

/-- What a request does to the variables. -/
def Scope.storeRequest (scope : Scope) : HostRequest → Scope
  | .print _ => scope
  | .store name v => scope.store (Text.fold name) v

namespace Action

variable {α β σ : Type}

/-- A silent action that only an aspect of the machine decides and that changes no more. -/
def Within (L : Aspect σ) (x : Action α) : Prop :=
  ∃ g : σ → Except Error α × σ, (∀ s, L.fixed (g s).2 = L.fixed s) ∧
    ∀ m, x.run m = ((g (L.see m)).1, L.put m (g (L.see m)).2)

/-- An action that only an aspect of the machine decides, that changes no more, and that may say
something to the host when it succeeds. -/
def Acts (L : Aspect σ) (x : Action α) : Prop :=
  ∃ g : σ → Except Error α × σ × Utterance,
    (∀ s, L.fixed (g s).2.1 = L.fixed s) ∧ (∀ s e, (g s).1 = .error e → (g s).2.2 = .silence) ∧
    ∀ m, x.run m = ((g (L.see m)).1, (L.put m (g (L.see m)).2.1).utter (g (L.see m)).2.2)

variable {L : Aspect σ}

namespace Within

theorem of_pure (a : α) : Within L (pure a : Action α) :=
  ⟨fun s => (.ok a, s), fun _ => rfl, fun m => by rw [L.put_see]; rfl⟩

theorem of_throw (e : Error) : Within L (throw e : Action α) :=
  ⟨fun s => (.error e, s), fun _ => rfl, fun m => by rw [L.put_see]; rfl⟩

theorem of_ofExcept (x : Except Error α) : Within L (ofExcept x) :=
  ⟨fun s => (x, s), fun _ => rfl, fun m => by rw [L.put_see]; rfl⟩

theorem of_bind {x : Action α} {f : α → Action β} (hx : Within L x) (hf : ∀ a, Within L (f a)) :
    Within L (x >>= f) := by
  obtain ⟨g, hfix, hg⟩ := hx
  obtain ⟨k, hk⟩ := Classical.axiomOfChoice hf
  refine ⟨fun s => match g s with
    | (.ok a, s') => k a s'
    | (.error e, s') => (.error e, s'), fun s => ?_, fun m => ?_⟩
  · have hs := hfix s
    cases h : g s with
    | mk r s' =>
      rw [h] at hs
      dsimp only
      rw [h]
      cases r with
      | ok a => exact ((hk a).1 s').trans hs
      | error e => exact hs
  · rw [run_bind, hg]
    cases h : g (L.see m) with
    | mk r s =>
      cases r with
      | ok a => simp only [h, (hk a).2, L.see_put, L.put_put]
      | error e => simp only [h]

theorem of_get {k : Machine → Action α} (h : ∀ m, k m = k (L.bare (L.see m)))
    (hk : ∀ m, Within L (k m)) : Within L (get >>= k) := by
  obtain ⟨g, hg⟩ := Classical.axiomOfChoice hk
  refine ⟨fun s => g (L.bare s) s, fun s => (hg (L.bare s)).1 s, fun m => ?_⟩
  rw [← (hg _).2, ← h]
  rfl

theorem of_modify {f : Machine → Machine} (f' : σ → σ)
    (hfix : ∀ s, L.fixed (f' s) = L.fixed s) (h : ∀ m, f m = L.put m (f' (L.see m))) :
    Within L (modify f : Action Unit) :=
  ⟨fun s => (.ok (), f' s), hfix, fun m => by rw [← h]; rfl⟩

theorem of_located (pos : Pos) {x : Action α} (hx : Within L x) :
    Within L (located pos x) := by
  obtain ⟨g, hfix, hg⟩ := hx
  refine ⟨fun s => ((g s).1.mapError (·.locatedAt pos), (g s).2), hfix, fun m => ?_⟩
  rw [run_located, hg]

theorem of_ite (c : Prop) [Decidable c] {x y : Action α} (hx : Within L x) (hy : Within L y) :
    Within L (if c then x else y) := by
  split
  · exact hx
  · exact hy

theorem inner {L : Aspect Sight} [L.Inward] {x : Action α} (hx : Within L x) :
    Within .inner x := by
  obtain ⟨g, hfix, hg⟩ := hx
  refine ⟨g, fun s => Aspect.Inward.fixtures_eq _ _ (hfix s), fun m => ?_⟩
  rw [hg, Aspect.Inward.see_eq, Aspect.Inward.put_eq]
  rfl

theorem rooted {x : Action α} (hx : Within .still x) : Within .rooted x := by
  obtain ⟨g, hfix, hg⟩ := hx
  exact ⟨g, fun s => congrArg Prod.fst (hfix s), hg⟩

theorem to_outer {L : Aspect Sight} [L.Inward] {x : Action α} (hx : Within L x) :
    Within .outer x := by
  obtain ⟨g, hfix, hg⟩ := hx.inner
  exact ⟨fun v => ((g v.1).1, (g v.1).2, v.2), fun v => hfix v.1, hg⟩

theorem level {x : Action α} (hx : Within .still x) : Within .level x := by
  obtain ⟨g, hfix, hg⟩ := hx
  exact ⟨g, fun s => congrArg (fun f : Ground × Heap => (f.1.toFixtures, f.2)) (hfix s), hg⟩

theorem roaming {x : Action α} (hx : Within .level x) : Within .roaming x := by
  obtain ⟨g, hfix, hg⟩ := hx
  exact ⟨fun v => ((g v.1).1, (g v.1).2, v.2), fun v => hfix v.1, hg⟩

theorem roams {x : Action α} (hx : Within .still x) : Within .roaming x :=
  hx.level.roaming

theorem outer {x : Action α} (hx : Within .roaming x) : Within .outer x := by
  obtain ⟨g, hfix, hg⟩ := hx
  exact ⟨g, fun v => congrArg Prod.fst (hfix v), hg⟩

theorem heap_eq {x : Action α} (hx : Within .roaming x) (m : Machine) :
    (x.run m).2.heap = m.heap := by
  obtain ⟨g, hfix, hg⟩ := hx
  rw [hg]
  exact congrArg Prod.snd (hfix (m.sight, m.place))

theorem acts {x : Action α} (hx : Within L x) : Acts L x := by
  obtain ⟨g, hfix, hg⟩ := hx
  refine ⟨fun s => ((g s).1, (g s).2, .silence), hfix, fun _ _ _ => rfl, fun m => ?_⟩
  rw [Machine.utter_silence, hg]

end Within

namespace Acts

theorem of_bind {x : Action α} {f : α → Action β} (hx : Within L x) (hf : ∀ a, Acts L (f a)) :
    Acts L (x >>= f) := by
  obtain ⟨g, hfix, hg⟩ := hx
  obtain ⟨k, hk⟩ := Classical.axiomOfChoice hf
  refine ⟨fun s => match g s with
    | (.ok a, s') => k a s'
    | (.error e, s') => (.error e, s', .silence), fun s => ?_, fun s e he => ?_, fun m => ?_⟩
  · have hs := hfix s
    cases h : g s with
    | mk r s' =>
      rw [h] at hs
      dsimp only
      rw [h]
      cases r with
      | ok a => exact ((hk a).1 s').trans hs
      | error e => exact hs
  · cases h : g s with
    | mk r s' =>
      cases r with
      | ok a =>
        simp only [h] at he ⊢
        exact (hk a).2.1 s' e he
      | error e' => simp only [h]
  · rw [run_bind, hg]
    cases h : g (L.see m) with
    | mk r s =>
      cases r with
      | ok a => simp only [h, (hk a).2.2, L.see_put, L.put_put]
      | error e => simp only [h, Machine.utter_silence]

theorem of_get {k : Machine → Action α} (h : ∀ m, k m = k (L.bare (L.see m)))
    (hk : ∀ m, Acts L (k m)) : Acts L (get >>= k) := by
  obtain ⟨g, hg⟩ := Classical.axiomOfChoice hk
  refine ⟨fun s => g (L.bare s) s, fun s => (hg (L.bare s)).1 s,
    fun s => (hg (L.bare s)).2.1 s, fun m => ?_⟩
  rw [← (hg _).2.2, ← h]
  rfl

theorem of_modify {f : Machine → Machine} (f' : σ → σ) (u : σ → Utterance)
    (hfix : ∀ s, L.fixed (f' s) = L.fixed s)
    (h : ∀ m, f m = (L.put m (f' (L.see m))).utter (u (L.see m))) :
    Acts L (modify f : Action Unit) :=
  ⟨fun s => (.ok (), f' s, u s), hfix, nofun, fun m => by rw [← h]; rfl⟩

theorem of_located (pos : Pos) {x : Action α} (hx : Acts L x) :
    Acts L (located pos x) := by
  obtain ⟨g, hfix, hsilent, hg⟩ := hx
  refine ⟨fun s => ((g s).1.mapError (·.locatedAt pos), (g s).2), hfix, fun s e he => ?_, fun m => ?_⟩
  · cases h : (g s).1 with
    | ok a => simp only [h] at he; cases he
    | error e' => exact hsilent s e' h
  · rw [run_located, hg]

theorem inner {L : Aspect Sight} [L.Inward] {x : Action α} (hx : Acts L x) : Acts .inner x := by
  obtain ⟨g, hfix, hsilent, hg⟩ := hx
  refine ⟨g, fun s => Aspect.Inward.fixtures_eq _ _ (hfix s), hsilent, fun m => ?_⟩
  rw [hg, Aspect.Inward.see_eq, Aspect.Inward.put_eq]
  rfl

theorem level {x : Action α} (hx : Acts .still x) : Acts .level x := by
  obtain ⟨g, hfix, hsilent, hg⟩ := hx
  exact ⟨g, fun s => congrArg (fun f : Ground × Heap => (f.1.toFixtures, f.2)) (hfix s), hsilent, hg⟩

theorem roaming {x : Action α} (hx : Acts .level x) : Acts .roaming x := by
  obtain ⟨g, hfix, hsilent, hg⟩ := hx
  exact ⟨fun v => ((g v.1).1, ((g v.1).2.1, v.2), (g v.1).2.2), fun v => hfix v.1,
    fun v => hsilent v.1, hg⟩

theorem outer {x : Action α} (hx : Acts .roaming x) : Acts .outer x := by
  obtain ⟨g, hfix, hsilent, hg⟩ := hx
  exact ⟨g, fun v => congrArg Prod.fst (hfix v), hsilent, hg⟩

theorem heap_eq {x : Action α} (hx : Acts .roaming x) (m : Machine) :
    (x.run m).2.heap = m.heap := by
  obtain ⟨g, hfix, -, hg⟩ := hx
  rw [hg]
  exact congrArg Prod.snd (hfix (m.sight, m.place))

end Acts

/-! ### Statements that stay in place -/

theorem within_evaluate (x : Env → Eval α) : Within .still (evaluate x) :=
  ⟨fun s =>
    (((x s.machine.env).run s.random).1,
      { s with random := ((x s.machine.env).run s.random).2 }), fun _ => rfl, fun _ => rfl⟩

theorem within_eval (e : Expr) : Within .still (eval e) :=
  eval_eq e ▸ within_evaluate _

theorem within_evalAll (es : List Expr) : Within .still (evalAll es) :=
  evalAll_eq es ▸ within_evaluate _

theorem within_naming {x : Action α} (hx : Within .level x) (literalNames : Bool) :
    Within .level (naming literalNames x) := by
  obtain ⟨g, hfix, hg⟩ := hx
  refine ⟨fun s =>
    ((g { s with literalNames := literalNames }).1,
      { (g { s with literalNames := literalNames }).2 with literalNames := false }),
    fun s => hfix { s with literalNames := literalNames }, fun m => ?_⟩
  rw [run_naming, hg]
  rfl

theorem within_evalArgs (args : Option Expr) : Within .still (evalArgs args) :=
  evalArgs_eq args ▸ within_evaluate _

/-- The arguments of a command, with plain names that stand for themselves or do not. -/
theorem within_namedArgs (args : Option Expr) (literalNames : Bool) :
    Within .level (naming literalNames (evalArgs args)) :=
  within_naming (within_evalArgs args).level literalNames

theorem within_evalNumber (e : Expr) : Within .still (evalNumber e) :=
  .of_bind (within_eval e) fun _ => .of_get (fun _ => rfl) fun _ => .of_ofExcept _

theorem within_store (name : String) (v : Value) : Within .still (store name v) :=
  .of_modify (fun s => { s with scope := s.scope.store name v }) (fun _ => rfl) fun _ => rfl

theorem within_slot (name : String) (selector : Selector) : Within .still (slot name selector) :=
  slot_eq name selector ▸ within_evaluate _

theorem within_storeElement (name : String) (selector : Selector) (v : Value) :
    Within .rooted (storeElement name selector v) :=
  .of_bind (within_slot name selector).rooted fun slot =>
    .of_modify (fun s => { s with heap := s.heap.write slot v }) (fun _ => rfl) fun _ => rfl

theorem within_terminate : Within .roaming terminate :=
  .of_modify (fun v =>
    ({ v.1 with resume := none },
      { v.2 with code := none, returns := v.2.returns.clear, status := .stopped }))
    (fun _ => rfl) fun _ => rfl

theorem within_guard (g : Option Guard) : Within .still (guard g) := by
  rcases g with _ | ⟨e⟩ | ⟨e⟩
  · exact .of_pure true
  · exact .of_bind (within_eval e) fun _ => .of_pure _
  · exact .of_bind (within_eval e) fun _ => .of_pure _

theorem within_readAll (targets : List Target) : Within .rooted (readAll targets) := by
  induction targets with
  | nil => exact .of_pure ()
  | cons target targets ih =>
    refine .of_get (fun _ => rfl) fun m => ?_
    refine .of_bind (.of_ofExcept _) fun r => ?_
    refine .of_bind (.of_modify (fun s => { s with data := r.2 }) (fun _ => rfl) fun _ => rfl)
      fun _ => ?_
    cases target with
    | var pos name => exact .of_bind (within_store name r.1).rooted fun _ => ih
    | element pos name selector =>
      exact .of_bind (.of_located _ (within_storeElement name selector r.1)) fun _ => ih

theorem within_exec {s : Stmt Address} (hs : s.stays) : Within .rooted (exec s) := by
  cases s with
  | assign pos name e =>
    exact Within.rooted (.of_bind (within_eval e) fun v => within_store name v)
  | assignElement pos name selector e =>
    exact .of_bind (within_eval e).rooted fun v => within_storeElement name selector v
  | dim pos name sizes =>
    refine .of_bind (within_evalAll sizes).rooted fun sizes => ?_
    refine .of_get (fun _ => rfl) fun m => ?_
    refine .of_bind (.of_ofExcept _) fun r => ?_
    exact .of_modify (fun s => { s with heap := r.2, scope := s.scope.store name r.1 })
      (fun _ => rfl) fun _ => rfl
  | map pos name =>
    exact .of_modify (fun s =>
      { s with heap := s.heap.newMap.2, scope := s.scope.store name s.heap.newMap.1 })
      (fun _ => rfl) fun _ => rfl
  | «for» pos header =>
    exact Within.rooted (.of_bind (within_eval header.start) fun v => within_store header.var v)
  | read pos targets => exact within_readAll targets
  | _ => cases hs

/-! ### Commands -/

theorem acts_print {text : Machine → String} (h : ∀ m, text m = text m.sight.machine) :
    Acts .still (modify fun m => m.print (text m) : Action Unit) :=
  .of_modify id (fun s => .ofTexts [text s.machine]) (fun _ => rfl) fun m => by
    rw [Machine.utter_text, h m]
    rfl

theorem acts_pushEvent {e : Event} (he : e.isMark) :
    Acts .still (modify (·.pushEvent e) : Action Unit) :=
  .of_modify id (fun _ => .ofMark e he 0) (fun _ => rfl) fun _ => rfl

theorem acts_listLines (first : Nat) (last : Option Nat) : Acts .still (listLines first last) :=
  acts_print fun _ => rfl

theorem within_lineNumber (v : Value) : Within .still (lineNumber v) :=
  .of_get (fun _ => rfl) fun _ => .of_ofExcept _

theorem acts_help (args : List Value) : Acts .still (help args) := by
  have complain (v : Value) : Acts .still
      (do throw (.typeMismatch ((← get).heap.display v ++ " is not a name")) : Action Unit) :=
    .of_get (fun _ => rfl) fun _ => (Within.of_throw _).acts
  unfold help
  split
  · exact acts_print fun _ => rfl
  · exact acts_print fun _ => rfl
  · exact acts_print fun _ => rfl
  · exact complain _

theorem within_sleep (args : List Value) : Within .roaming (sleep args) := by
  unfold sleep
  split
  · rename_i v
    refine .of_get (fun _ => rfl) fun m => ?_
    refine .of_bind (.of_ofExcept _) fun seconds => ?_
    refine .of_bind (.of_ofExcept _) fun nanos => ?_
    exact .of_modify (fun v =>
      (v.1, { v.2 with status := .asleep (v.1.clock.nanos + nanos) })) (fun _ => rfl) fun _ => rfl
  · exact .of_throw _

theorem within_poke (args : List Value) : Within .still (poke args) := by
  unfold poke
  split
  · rename_i address value
    refine .of_get (fun _ => rfl) fun m => ?_
    refine .of_bind (.of_ofExcept _) fun address => ?_
    refine .of_get (fun _ => rfl) fun m => ?_
    refine .of_bind (.of_ofExcept _) fun value => ?_
    refine .of_bind (.of_ofExcept _) fun byte => ?_
    exact .of_modify (fun s => { s with memory := s.memory.insert address byte })
      (fun _ => rfl) fun _ => rfl
  · exact .of_throw _

theorem acts_list (args : List Value) : Acts .still (list args) := by
  unfold list
  split
  · exact acts_listLines 0 none
  · exact .of_bind (within_lineNumber _) fun first => acts_listLines first none
  · exact .of_bind (within_lineNumber _) fun first =>
      .of_bind (within_lineNumber _) fun last => acts_listLines first (some last)
  · exact (Within.of_throw _).acts

theorem acts_listTo (args : List Value) : Acts .still (listTo args) := by
  unfold listTo
  split
  · exact acts_listLines 0 none
  · exact .of_bind (within_lineNumber _) fun last => acts_listLines 0 (some last)
  · exact (Within.of_throw _).acts

theorem acts_report (args : List Value) {report : String → Event}
    (hreport : ∀ name, (report name).isMark) :
    Acts .still (do
      let name ← ofExcept (Command.fileName (← get).heap args)
      modify (·.pushEvent (report name)) : Action Unit) := by
  refine .of_get (fun _ => rfl) fun m => ?_
  exact .of_bind (.of_ofExcept _) fun name => acts_pushEvent (hreport name)

theorem acts_builtin_still (args : List Value) {b : Builtin} (hb : b.stays)
    (hdeparts : b.departs = false) : Acts .still (builtin args b) := by
  cases b with
  | print => exact acts_print fun _ => rfl
  | cls => exact .of_modify id (fun _ => .ofMark .cls rfl 1) (fun _ => rfl) fun _ => rfl
  | restore =>
    exact Within.acts (.of_modify (fun s => { s with data := s.data.rewind })
      (fun _ => rfl) fun _ => rfl)
  | help => exact acts_help args
  | env => exact acts_print fun _ => rfl
  | list => exact acts_list args
  | listTo => exact acts_listTo args
  | clear =>
    exact Within.acts (.of_modify (fun s => { s with scope := s.scope.clear, memory := ∅ })
      (fun _ => rfl) fun _ => rfl)
  | poke => exact (within_poke args).acts
  | traceOn =>
    exact Within.acts (.of_modify (fun s => { s with tracing := true }) (fun _ => rfl) fun _ => rfl)
  | traceOff =>
    exact Within.acts (.of_modify (fun s => { s with tracing := false }) (fun _ => rfl) fun _ => rfl)
  | load => exact acts_report args fun _ => rfl
  | save => exact acts_report args fun _ => rfl
  | new => cases hdeparts
  | _ => cases hb

theorem acts_builtin (args : List Value) {b : Builtin} (hb : b.stays) :
    Acts .level (builtin args b) := by
  cases hdeparts : b.departs with
  | false => exact (acts_builtin_still args hb hdeparts).level
  | true =>
    cases b with
    | new =>
      exact Within.acts (.of_modify (fun s => { s with
        scope := s.scope.clear, memory := ∅, data := {}, listing := {}, program := s.program.clear,
        resume := none }) (fun _ => rfl) fun _ => rfl)
    | run => cases hb
    | cont => cases hb
    | _ => cases hdeparts

theorem foldl_grant (requests : List HostRequest) (m : Machine) :
    requests.foldl (fun m r => grant r m) m =
      (m.withSight { m.sight with scope := requests.foldl Scope.storeRequest m.scope }).utter
        (.ofTexts (requests.filterMap HostRequest.text?)) := by
  induction requests generalizing m with
  | nil => simp [Machine.utter, Utterance.ofTexts, Utterance.extend]; rfl
  | cons r rs ih =>
    rw [List.foldl_cons, ih]
    cases r with
    | print s =>
      simp only [List.filterMap_cons, HostRequest.text?, Machine.utter_texts_cons]
      rfl
    | store name v => rfl

theorem acts_perform_host (handler : Heap → List Value → Except Error (List HostRequest))
    (args : List Value) : Acts .still (perform (.host handler) args) := by
  refine .of_get (fun _ => rfl) fun m => ?_
  refine .of_bind (.of_ofExcept _) fun requests => ?_
  exact .of_modify (fun s => { s with scope := requests.foldl Scope.storeRequest s.scope })
    (fun _ => .ofTexts (requests.filterMap HostRequest.text?)) (fun _ => rfl)
    fun m => foldl_grant requests m

theorem acts_perform {c : CommandAction} (hc : c.stays) (args : List Value) :
    Acts .level (perform c args) := by
  cases c with
  | host handler => exact (acts_perform_host handler args).level
  | builtin b => exact acts_builtin args hc

theorem acts_perform_still {c : CommandAction} (hc : c.stays) (hdeparts : c.departs = false)
    (args : List Value) : Acts .still (perform c args) := by
  cases c with
  | host handler => exact acts_perform_host handler args
  | builtin b => exact acts_builtin_still args hc hdeparts

/-! ### Statements that move the machine -/

theorem within_labelFrame (name : String) : Within .still (labelFrame name) := by
  refine .of_get (fun _ => rfl) fun m => ?_
  split
  · exact .of_pure _
  · exact .of_throw _

theorem within_labelOf (target : Expr) : Within .still (labelOf target) := by
  refine .of_get (fun _ => rfl) fun m => ?_
  split
  · exact .of_pure _
  · refine .of_bind (within_eval target) fun v => ?_
    split
    · exact .of_pure _
    · exact .of_pure _
    · exact .of_pure _
    · exact .of_throw _

theorem within_target (e : Expr) : Within .still (target e) :=
  .of_bind (within_labelOf e) fun name => .of_located _ (within_labelFrame name)

theorem within_choose (index : Expr) (labels : List String) :
    Within .still (choose index labels) := by
  refine .of_bind (within_evalNumber index) fun x => ?_
  dsimp only
  split
  · exact within_labelFrame _
  · exact .of_throw _

theorem within_jump (frame : Frame) : Within .roaming (jump frame) :=
  .of_modify (fun v => (v.1, { v.2 with code := some frame.block, pc := frame.addr }))
    (fun _ => rfl) fun _ => rfl

theorem within_setPc (addr : Address) :
    Within .roaming (modify fun m => { m with pc := addr } : Action Unit) :=
  .of_modify (fun v => (v.1, { v.2 with pc := addr })) (fun _ => rfl) fun _ => rfl

theorem within_call (frame : Frame) : Within .roaming (call frame) := by
  refine .of_get (fun _ => rfl) fun m => ?_
  split
  · exact .of_throw _
  · split
    · exact .of_throw _
    · refine .of_bind ?_ fun _ => within_jump frame
      exact .of_modify (fun v => (v.1, { v.2 with returns := v.2.returns.add _ }))
        (fun _ => rfl) fun _ => rfl

theorem within_goBack : Within .roaming goBack := by
  refine .of_get (fun _ => rfl) fun m => ?_
  split
  · refine .of_bind ?_ fun _ => within_jump _
    exact .of_modify (fun v => (v.1, { v.2 with returns := v.2.returns.pop }))
      (fun _ => rfl) fun _ => rfl
  · exact within_terminate

/-- The number that a counting loop's variable holds. -/
def counter (pos : Pos) (var : String) : Action Float := do
  match (← get).scope.fetch var with
  | some (.number x) => pure x
  | some v => throw ((Error.typeMismatch (var ++ " is " ++ v.typeName)).locatedAt pos)
  | none => throw ((Error.unknownIdentifier var).locatedAt pos)

/-- How far a pass takes a counting loop. -/
def stride : Option Expr → Action Float
  | some e => evalNumber e
  | none => pure 1

/-- Takes a counting loop's variable one step further and tells whether to make another pass. -/
def anotherPass (pos : Pos) (var : String) (limit : Expr) (step : Option Expr) : Action Bool := do
  let current ← counter pos var
  let step ← stride step
  store var (.number (current + step))
  let limit ← evalNumber limit
  let m ← get
  let again := if m.config.signedStep && step < 0 then current + step ≥ limit
    else current + step ≤ limit
  pure (decide again)

theorem advanceLoop_eq (pos : Pos) (header : ForHeader Address) :
    advanceLoop pos header = (do
      if ← anotherPass pos header.var header.limit header.step then
        modify fun m => { m with pc := header.body }) := by
  unfold advanceLoop anotherPass counter
  simp only [bind_assoc, pure_bind, decide_eq_true_eq]
  congr 1
  funext m
  cases header.step with
  | none =>
    simp only [stride, pure_bind]
    cases m.scope.fetch header.var with
    | none => rfl
    | some v => cases v <;> rfl
  | some e =>
    simp only [stride]
    cases m.scope.fetch header.var with
    | none => rfl
    | some v => cases v <;> rfl

theorem within_counter (pos : Pos) (var : String) : Within .still (counter pos var) := by
  refine .of_get (fun _ => rfl) fun m => ?_
  split
  · exact .of_pure _
  · exact .of_throw _
  · exact .of_throw _

theorem within_stride (step : Option Expr) : Within .still (stride step) := by
  cases step with
  | none => exact .of_pure 1
  | some e => exact within_evalNumber e

theorem within_anotherPass (pos : Pos) (var : String) (limit : Expr) (step : Option Expr) :
    Within .still (anotherPass pos var limit step) := by
  refine .of_bind (within_counter pos var) fun current => ?_
  refine .of_bind (within_stride step) fun step => ?_
  refine .of_bind (within_store var _) fun _ => ?_
  refine .of_bind (within_evalNumber limit) fun limit => ?_
  exact .of_get (fun _ => rfl) fun _ => .of_pure _

theorem within_advanceLoop (pos : Pos) (header : ForHeader Address) :
    Within .roaming (advanceLoop pos header) := by
  rw [advanceLoop_eq]
  refine .of_bind (within_anotherPass _ _ _ _).roams fun again => ?_
  exact .of_ite _ (within_setPc _) (.of_pure _)

/-- Compiling, as far as it shows. -/
def compileSight (source : String) (parent : Option Frame) (s : Sight) : Except Error Block × Sight :=
  match s.program.compile s.data source parent with
  | .ok (block, program, data) => (.ok block, { s with program := program, data := data })
  | .error e => (.error e, s)

theorem within_compile (source : String) (parent : Option Frame) :
    Within .level (ExceptT.mk fun m => m.compile source parent) := by
  refine ⟨compileSight source parent, fun s => ?_, fun m => ?_⟩
  · unfold compileSight
    cases s.program.compile s.data source parent with
    | error e => rfl
    | ok r => rfl
  · change m.compile source parent = _
    have hsee : m.program.compile m.data source parent =
        (Aspect.level.see m).program.compile (Aspect.level.see m).data source parent := rfl
    unfold Machine.compile compileSight
    rw [← hsee]
    cases m.program.compile m.data source parent with
    | error e => rfl
    | ok r => rfl

theorem within_compileListing : Within .roaming (ExceptT.mk Machine.compileListing) := by
  obtain ⟨g, hg⟩ := Classical.axiomOfChoice fun source => (within_compile source none).roaming
  refine ⟨fun v => g v.1.listing.source
    ({ v.1 with
      scope := v.1.scope.clear, memory := ∅, data := {}, program := v.1.program.clear,
      resume := none }, { v.2 with returns := v.2.returns.clear }),
    fun v => (hg v.1.listing.source).1 _, fun m => ?_⟩
  exact (hg m.listing.source).2
    { m with
      scope := m.scope.clear, memory := ∅, data := {}, program := m.program.clear,
      returns := m.returns.clear, resume := none }

theorem within_run (block : Block) (addr : Address) :
    Within .roaming (modify fun m => m.run block addr : Action Unit) :=
  .of_modify (fun v => (v.1, { v.2 with code := some block, pc := addr, status := .running }))
    (fun _ => rfl) fun _ => rfl

theorem within_restart (label : Option String) : Within .roaming (restart label) := by
  refine .of_bind within_compileListing fun block => ?_
  obtain ⟨g, hg⟩ := Classical.axiomOfChoice fun p : Block × Address => within_run p.1 p.2
  refine ⟨fun v => g ((label.bind v.1.program.label?).elim (block, 0) fun f => (f.block, f.addr)) v,
    fun v => (hg _).1 v, fun m => ?_⟩
  rw [← (hg _).2 m]
  change (Except.ok (), (_ : Machine)) = (Except.ok (), m.run _ _)
  have hsee : (Aspect.roaming.see m).1.program = m.program := rfl
  dsimp only
  rw [hsee]
  cases label.bind m.program.label? <;> rfl

theorem within_resume : Within .roaming resume := by
  refine .of_get (fun _ => rfl) fun m => ?_
  split
  · rename_i frame status _
    exact .of_modify (fun v =>
      ({ v.1 with resume := none },
        { v.2 with code := some frame.block, pc := frame.addr, status := status }))
      (fun _ => rfl) fun _ => rfl
  · exact .of_throw _

theorem within_input (args : List Value) : Within .roaming (builtin args .input) :=
  .of_modify (fun v =>
    (v.1, { v.2 with status := .input (Command.promptOf v.1.heap args) (Command.targetsOf args) }))
    (fun _ => rfl) fun _ => rfl

theorem acts_builtin_roaming (args : List Value) (b : Builtin) : Acts .roaming (builtin args b) := by
  by_cases hb : b.stays
  · exact (acts_builtin args hb).roaming
  · cases b with
    | run =>
      refine .of_get (fun _ => rfl) fun m => ?_
      exact .of_bind (.of_ofExcept _) fun label => (within_restart label).acts
    | cont => exact within_resume.acts
    | input => exact (within_input args).acts
    | sleep => exact (within_sleep args).acts
    | _ => exact absurd rfl hb

theorem acts_perform_roaming (c : CommandAction) (args : List Value) :
    Acts .roaming (perform c args) := by
  cases c with
  | builtin b => exact acts_builtin_roaming args b
  | host handler => exact (acts_perform_host handler args).level.roaming

theorem acts_command (pos : Pos) (name : String) (args : Option Expr) (literalNames : Bool) :
    Acts .roaming (command pos name args literalNames) := by
  refine .of_get (fun _ => rfl) fun m => ?_
  split
  · exact Within.acts (.of_throw _)
  · refine .of_bind (within_namedArgs args literalNames).roaming fun args => ?_
    exact .of_located _ (acts_perform_roaming _ args)

/-- A statement that is not made of others and makes no use of containers leaves them alone, and has
nothing to say unless it is a command. -/
theorem within_light {s : Stmt Address} (hs : s.isLight) : Within .roaming (exec s) := by
  cases s with
  | assign pos name e => exact Within.roams (.of_bind (within_eval e) fun v => within_store name v)
  | «for» pos header =>
    exact Within.roams (.of_bind (within_eval header.start) fun v => within_store header.var v)
  | goto pos e => exact .of_bind (within_target e).roams fun frame => within_jump frame
  | gosub pos e => exact .of_bind (within_target e).roams fun frame => within_call frame
  | onGoto pos index labels =>
    exact .of_bind (within_choose index labels).roams fun frame => within_jump frame
  | onGosub pos index labels =>
    exact .of_bind (within_choose index labels).roams fun frame => within_call frame
  | next pos header => exact within_advanceLoop pos header
  | «do» pos g header =>
    refine .of_bind (within_guard g).roams fun goesOn => ?_
    exact .of_ite _ (within_setPc _) (.of_pure _)
  | loop pos g header =>
    refine .of_bind (within_guard g).roams fun goesOn => ?_
    exact .of_ite _ (within_setPc _) (.of_pure _)
  | leave pos exit => exact within_setPc exit
  | «return» pos => exact within_goBack
  | finish pos => exact within_terminate
  | _ => cases hs

/-- A statement that is neither made of others nor a command has nothing to say. -/
theorem within_plain {s : Stmt Address} (hs : s.isSimple) : Within .outer (exec s) := by
  by_cases hlight : s.isLight
  · exact (within_light hlight).outer
  · cases s with
    | assignElement | dim | map | read => exact (within_exec rfl).to_outer
    | command | when | choose => cases hs
    | _ => exact absurd rfl hlight

/-- What a statement sees of the machine decides everything that it does. -/
theorem acts_exec (s : Stmt Address) : Acts .outer (exec s) := by
  induction s with
  | command pos name args literal => exact (acts_command pos name args literal).outer
  | when pos condition taken ih =>
    refine .of_bind (within_eval condition).to_outer fun v => ?_
    split
    · exact ih
    · exact Within.acts (.of_pure ())
  | choose pos condition taken otherwise ih₁ ih₂ =>
    refine .of_bind (within_eval condition).to_outer fun v => ?_
    split
    · exact ih₁
    · exact ih₂
  | _ => exact (within_plain rfl).acts

end Action

end LineBasic
