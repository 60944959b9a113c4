import LineBasic.Proofs.Nests
import LineBasic.Proofs.Turns
import Mathlib.Logic.Function.Iterate

/-!
# Loops by address

A program that is laid out flat does what the nest does that it is the layout of. The place of the
next statement is all that the two keep differently, so the proof follows the nest and says at which
address a flat run is when the nest has come to an end. A nest that takes too long makes the flat run
take as many turns, so that neither comes to an end without the other.
-/

namespace LineBasic

set_option autoImplicit false

namespace Machine

/-- The same machine at another statement of its block. -/
def goTo (m : Machine) (a : Address) : Machine :=
  { m with pc := a }

/-- So many turns of a program that has not come to its end before. -/
inductive Turns : Nat → Machine → Machine → Prop where
  | zero (m : Machine) : Turns 0 m m
  | succ {k : Nat} {m m' : Machine} (h : m.code ≠ none) : Turns k m.turn m' → Turns (k + 1) m m'

namespace Turns

variable {j k : Nat} {m m' m'' : Machine}

theorem trans (h : Turns j m m') (h' : Turns k m' m'') : Turns (j + k) m m'' := by
  induction h with
  | zero m => rwa [Nat.zero_add]
  | succ hcode _ ih =>
    rw [Nat.add_right_comm]
    exact .succ hcode (ih h')

theorem one (h : m.code ≠ none) : Turns 1 m m.turn :=
  .succ h (.zero _)

theorem of_iterate {k : Nat} (h : ∀ i < k, (turn^[i] m).code.isSome) : Turns k m (turn^[k] m) := by
  induction k generalizing m with
  | zero => exact .zero m
  | succ k ih =>
    refine .succ (Option.isSome_iff_ne_none.mp (h 0 (Nat.zero_lt_succ k))) (ih fun i hi => ?_)
    exact h (i + 1) (Nat.succ_lt_succ hi)

theorem le_of_ended (h : Turns j m m') (hended : m'.code = none) (h' : Turns k m m'') : k ≤ j := by
  induction h generalizing k with
  | zero m =>
    cases h' with
    | zero _ => exact Nat.le_refl 0
    | succ hcode _ => exact absurd hended hcode
  | succ hcode _ ih =>
    cases h' with
    | zero _ => exact Nat.zero_le _
    | succ _ h' => exact Nat.succ_le_succ (ih hended h')

theorem eq_of_ended (h : Turns j m m') (hended : m'.code = none) (h' : Turns k m m'')
    (hended' : m''.code = none) : m' = m'' := by
  induction h generalizing k with
  | zero m =>
    cases h' with
    | zero _ => rfl
    | succ hcode _ => exact absurd hended hcode
  | succ hcode _ ih =>
    cases h' with
    | zero _ => exact absurd hended' hcode
    | succ _ h' => exact ih hended h'

end Turns

/-- Makes turns until the program has come to an end, which leaves the machine in the state `m'`. -/
def Finishes (m m' : Machine) : Prop :=
  ∃ k, Turns k m m' ∧ m'.code = none

/-- The commands that suspend a program are only known under their own names. -/
def OwnNames (m : Machine) : Prop :=
  ∀ name c, m.commands[name]? = some c → c.action.stays = false → Stmt.suspending.contains name

theorem OwnNames.defineCommand {m : Machine} (hm : m.OwnNames) {name : String} {c : Command}
    (hc : c.action.stays = false → Stmt.suspending.contains (Text.fold name)) :
    (m.defineCommand name c).OwnNames := by
  intro other c' hc' hstays
  change (m.commands.insert (Text.fold name) c)[other]? = some c' at hc'
  rw [Std.TreeMap.getElem?_insert] at hc'
  split at hc'
  · rename_i heq
    cases hc'
    rw [← Std.LawfulEqCmp.eq_of_compare heq]
    exact hc hstays
  · exact hm other c' hc' hstays

theorem OwnNames.defineCommands {cs : List (String × Command)}
    (hcs : ∀ c ∈ cs, c.2.action.stays = false → Stmt.suspending.contains (Text.fold c.1))
    {m : Machine} (hm : m.OwnNames) :
    (cs.foldl (fun m c => m.defineCommand c.1 c.2) m).OwnNames := by
  induction cs generalizing m with
  | nil => exact hm
  | cons c cs ih =>
    obtain ⟨hc, hcs⟩ := List.forall_mem_cons.mp hcs
    exact ih hcs (hm.defineCommand hc)

theorem OwnNames.defineFunctions {fs : List (String × Function)} {m : Machine} (hm : m.OwnNames) :
    (fs.foldl (fun m f => m.defineFunction f.1 f.2) m).OwnNames := by
  induction fs generalizing m with
  | nil => exact hm
  | cons f fs ih => exact ih hm

theorem OwnNames.run {m : Machine} (hm : m.OwnNames) (block : Block) (addr : Address) :
    (m.run block addr).OwnNames :=
  hm

theorem OwnNames.store {m : Machine} (hm : m.OwnNames) (name : String) (v : Value) :
    (m.store name v).OwnNames :=
  hm

theorem ownNames_new (config : Config) (random : Random) : (new config random).OwnNames := by
  refine .defineFunctions (.defineCommands ?_ fun name c hc => ?_)
  · decide +kernel
  · rw [Std.TreeMap.getElem?_emptyc] at hc
    cases hc

end Machine

/-- Where a statement goes that stands before `next` in a loop that ends before `exit`. -/
def Flow.goes (next exit : Address) : Flow → Address
  | left => exit
  | _ => next

/-- Whether `act` leaves a statement to `exec`. -/
def Stmt.isLeaf : Stmt Unit → Bool
  | .when .. | .choose .. | .leave .. | .finish _ => false
  | _ => true

theorem Stmt.act_of_isLeaf {s : Stmt Unit} (h : s.isLeaf) :
    s.act = (do
      Action.exec (s.mapExit fun _ => 0)
      pure .on) := by
  cases s with
  | when => cases h
  | choose => cases h
  | leave => cases h
  | finish => cases h
  | _ => rfl

namespace Action

variable {α : Type}

/-- An action that does not move the machine does the same at any place and keeps it there. -/
theorem Acts.run_goTo {x : Action α} (hx : Acts .inner x) (m : Machine) (pc : Address) :
    x.run (m.goTo pc) = ((x.run m).1, (x.run m).2.goTo pc) := by
  obtain ⟨g, -, -, hg⟩ := hx
  rw [hg, hg m]
  rfl

theorem Acts.keeps {x : Action α} (hx : Acts .inner x) (m : Machine) :
    (x.run m).2.code = m.code ∧ (x.run m).2.commands = m.commands := by
  obtain ⟨g, hfix, -, hg⟩ := hx
  rw [hg]
  exact ⟨rfl, congrArg (·.commands) (hfix m.sight)⟩

theorem command_acts {m : Machine} (hm : m.OwnNames) {name : String}
    (hname : Stmt.suspending.contains name = false) (pos : Pos) (args : Option Expr)
    (literalNames : Bool) :
    ∃ x : Action Unit, Acts .inner x ∧
      ∀ m' : Machine, m'.commands = m.commands →
        (command pos name args literalNames).run m' = x.run m' := by
  cases hc : m.commands[name]? with
  | none =>
    let e : Error :=
      { code := .unknownCommand, detail := "unknown command [" ++ name ++ "]", pos := some pos }
    refine ⟨throw e, (Within.of_throw _).acts, fun m' hm' => ?_⟩
    simp only [command, run_bind, run_get, hm', hc]
    rfl
  | some c =>
    have hstays : c.action.stays := by
      cases hstays : c.action.stays with
      | true => rfl
      | false =>
        have := hm name c hc hstays
        rw [hname] at this
        cases this
    refine ⟨naming literalNames (evalArgs args) >>= fun args =>
      located pos (perform c.action args), ?_, fun m' hm' => ?_⟩
    · exact .of_bind (within_namedArgs args literalNames).inner fun args =>
        .of_located pos (acts_perform hstays args).inner
    · simp only [command, run_bind, run_get, hm', hc]

theorem leaf_acts {s : Stmt Unit} (hleaf : s.isLeaf) (hloopless : s.loopless) (hdirect : s.direct)
    {m : Machine} (hm : m.OwnNames) :
    ∃ x : Action Unit, Acts .inner x ∧ ∀ (exit : Address) (m' : Machine), m'.commands = m.commands →
      (exec (s.mapExit fun _ => exit)).run m' = x.run m' := by
  cases s with
  | command pos name args literal =>
    have hname : Stmt.suspending.contains name = false := by simpa [Stmt.direct] using hdirect
    obtain ⟨x, hx, hrun⟩ := command_acts hm hname pos args literal
    exact ⟨x, hx, fun _ => hrun⟩
  | assign pos name e =>
    exact ⟨exec (.assign pos name e), (within_exec rfl).inner.acts, fun _ _ _ => rfl⟩
  | assignElement pos name selector e =>
    exact ⟨exec (.assignElement pos name selector e), (within_exec rfl).inner.acts, fun _ _ _ => rfl⟩
  | dim pos name sizes =>
    exact ⟨exec (.dim pos name sizes), (within_exec rfl).inner.acts, fun _ _ _ => rfl⟩
  | map pos name => exact ⟨exec (.map pos name), (within_exec rfl).inner.acts, fun _ _ _ => rfl⟩
  | read pos targets => exact ⟨exec (.read pos targets), (within_exec rfl).inner.acts, fun _ _ _ => rfl⟩
  | «for» pos header => cases hloopless
  | next pos header => cases hloopless
  | «do» pos g header => cases hloopless
  | loop pos g header => cases hloopless
  | goto pos e => cases hdirect
  | gosub pos e => cases hdirect
  | onGoto pos index labels => cases hdirect
  | onGosub pos index labels => cases hdirect
  | «return» pos => cases hdirect
  | _ => cases hleaf

/-- The result of an action, for a statement that goes to a place that depends on it. -/
def land (next : Address) (goes : α → Address) :
    Except Error α × Machine → Except Error Unit × Machine
  | (.ok a, m) => (.ok (), m.goTo (goes a))
  | (.error e, m) => (.error e, m.goTo next)

theorem run_land {x : Action α} (hx : Acts .inner x) {f : α → Action Unit} {goes : α → Address}
    {next : Address} {m : Machine}
    (hf : ∀ a m', x.run m = (.ok a, m') →
      (f a).run (m'.goTo next) = (.ok (), m'.goTo (goes a))) :
    (x >>= f).run (m.goTo next) = land next goes (x.run m) := by
  rw [run_bind, hx.run_goTo]
  cases h : x.run m with
  | mk r m' =>
    cases r with
    | ok a => exact hf a m' h
    | error e => rfl

/-- A branch goes on as the statement that is chosen. -/
theorem run_branch (condition : Expr) {f : Value → Action Unit} {k : Value → Action Flow}
    {next exit : Address} {m : Machine}
    (hf : ∀ v m', (eval condition).run m = (.ok v, m') →
      (f v).run (m'.goTo next) = land next (Flow.goes next exit) ((k v).run m')) :
    (eval condition >>= f).run (m.goTo next) =
      land next (Flow.goes next exit) ((eval condition >>= k).run m) := by
  rw [run_bind, run_bind, (within_eval condition).inner.acts.run_goTo]
  cases h : (eval condition).run m with
  | mk r m' =>
    cases r with
    | ok v => exact hf v m' h
    | error e => rfl

theorem eval_keeps {condition : Expr} {m m' : Machine} {v : Value}
    (h : (eval condition).run m = (.ok v, m')) : m'.code = m.code ∧ m'.commands = m.commands := by
  have hkeeps := (within_eval condition).inner.acts.keeps m
  rwa [h] at hkeeps

theorem ownNames_of_eval {condition : Expr} {m m' : Machine} {v : Value} (hm : m.OwnNames)
    (h : (eval condition).run m = (.ok v, m')) : m'.OwnNames := by
  intro name c hc
  exact hm name c ((eval_keeps h).2 ▸ hc)

theorem exec_act_leaf {s : Stmt Unit} (hleaf : s.isLeaf) (hloopless : s.loopless)
    (hdirect : s.direct) {m : Machine} (hm : m.OwnNames) (next exit : Address) :
    (exec (s.mapExit fun _ => exit)).run (m.goTo next) =
      land next (Flow.goes next exit) (s.act.run m) := by
  obtain ⟨x, hx, hrun⟩ := leaf_acts hleaf hloopless hdirect hm
  have hflat := hrun exit (m.goTo next) rfl
  rw [Stmt.act_of_isLeaf hleaf, run_bind, hflat, hrun 0 m rfl, hx.run_goTo]
  cases x.run m with
  | mk r m' => cases r <;> rfl

theorem act_keeps_leaf {s : Stmt Unit} (hleaf : s.isLeaf) (hloopless : s.loopless)
    (hdirect : s.direct) {m m' : Machine} (hm : m.OwnNames) {flow : Flow}
    (h : s.act.run m = (.ok flow, m')) :
    m'.commands = m.commands ∧ m'.code = if flow = .ended then none else m.code := by
  obtain ⟨x, hx, hrun⟩ := leaf_acts hleaf hloopless hdirect hm
  rw [Stmt.act_of_isLeaf hleaf] at h
  obtain ⟨_, m₁, hx₁, hrest⟩ := run_bind_eq_ok h
  have hkeeps := hx.keeps m
  rw [hrun 0 m rfl] at hx₁
  rw [hx₁] at hkeeps
  cases hrest
  exact ⟨hkeeps.2, hkeeps.1⟩

/-- A statement at the place before `next`, in a loop that ends before `exit`, does what it does in
a nest and goes to the one place or the other. -/
theorem exec_act (s : Stmt Unit) (hloopless : s.loopless) (hdirect : s.direct) {m : Machine}
    (hm : m.OwnNames) (next exit : Address) :
    (exec (s.mapExit fun _ => exit)).run (m.goTo next) =
      land next (Flow.goes next exit) (s.act.run m) := by
  induction s generalizing m with
  | when pos condition taken ih =>
    refine run_branch condition fun v m' hv => ?_
    have hm' := ownNames_of_eval hm hv
    split
    · exact ih hloopless hdirect hm'
    · rfl
  | choose pos condition taken otherwise ih₁ ih₂ =>
    have hloopless' := Bool.and_eq_true_iff.mp hloopless
    have hdirect' := Bool.and_eq_true_iff.mp hdirect
    refine run_branch condition fun v m' hv => ?_
    have hm' := ownNames_of_eval hm hv
    split
    · exact ih₁ hloopless'.1 hdirect'.1 hm'
    · exact ih₂ hloopless'.2 hdirect'.2 hm'
  | leave pos exit => rfl
  | finish pos => rfl
  | _ => exact exec_act_leaf rfl hloopless hdirect hm next exit

theorem act_keeps (s : Stmt Unit) (hloopless : s.loopless) (hdirect : s.direct) {m m' : Machine}
    (hm : m.OwnNames) {flow : Flow} (h : s.act.run m = (.ok flow, m')) :
    m'.commands = m.commands ∧ m'.code = if flow = .ended then none else m.code := by
  induction s generalizing m with
  | when pos condition taken ih =>
    obtain ⟨v, m₁, hv, hrest⟩ := run_bind_eq_ok h
    obtain ⟨hcode, hcommands⟩ := eval_keeps hv
    rw [← hcode, ← hcommands]
    split at hrest
    · exact ih hloopless hdirect (ownNames_of_eval hm hv) hrest
    · cases hrest
      exact ⟨rfl, rfl⟩
  | choose pos condition taken otherwise ih₁ ih₂ =>
    have hloopless' := Bool.and_eq_true_iff.mp hloopless
    have hdirect' := Bool.and_eq_true_iff.mp hdirect
    obtain ⟨v, m₁, hv, hrest⟩ := run_bind_eq_ok h
    obtain ⟨hcode, hcommands⟩ := eval_keeps hv
    rw [← hcode, ← hcommands]
    split at hrest
    · exact ih₁ hloopless'.1 hdirect'.1 (ownNames_of_eval hm hv) hrest
    · exact ih₂ hloopless'.2 hdirect'.2 (ownNames_of_eval hm hv) hrest
  | leave pos exit =>
    cases h
    exact ⟨rfl, rfl⟩
  | finish pos =>
    cases h
    exact ⟨rfl, rfl⟩
  | _ => exact act_keeps_leaf rfl hloopless hdirect hm h

end Action

namespace Machine

/-- A machine in the middle of a block. -/
structure Ready (block : Block) (m : Machine) : Prop where
  code : m.code = some block
  ownNames : m.OwnNames

theorem Ready.of_keeps {block : Block} {m m' : Machine} (h : Ready block m)
    (hcode : m'.code = m.code) (hcommands : m'.commands = m.commands) : Ready block m' := by
  refine ⟨hcode.trans h.code, fun name c hc => ?_⟩
  exact h.ownNames name c (hcommands ▸ hc)

theorem trace_keeps (m : Machine) (pos : Pos) :
    (m.trace pos).code = m.code ∧ (m.trace pos).commands = m.commands := by
  unfold trace
  split <;> exact ⟨rfl, rfl⟩

theorem trace_goTo (m : Machine) (pc : Address) (pos : Pos) :
    (m.goTo pc).trace pos = (m.trace pos).goTo pc := by
  unfold trace goTo
  dsimp only
  split <;> rfl

/-- A flat run from `m` on gets to where the nest gets: to the place `through` after it, to the place
`exit` after the loop around it, or to the end of the program. If the nest takes too long, the flat
run takes at least `bound` turns. -/
def Lands (block : Block) (bound : Nat) (through exit : Address) (m : Machine) :
    Option (Ending × Machine) → Prop
  | none => ∃ k m', bound ≤ k ∧ Turns k m m' ∧ m'.code ≠ none
  | some (.through, m') => Ready block m' ∧ ∃ k, Turns k m (m'.goTo through)
  | some (.left, m') => Ready block m' ∧ ∃ k, Turns k m (m'.goTo exit)
  | some (.ended, m') => m'.code = none ∧ ∃ k pc, Turns k m (m'.goTo pc)
  | some (.failed e pos, m') => ∃ k pc, Turns k m ((m'.goTo pc).abort e block pos)

namespace Lands

variable {block : Block} {bound through exit : Nat} {m m' : Machine}
  {r : Option (Ending × Machine)}

theorem after {k : Nat} (hk : Turns k m m') (h : Lands block bound through exit m' r) :
    Lands block (k + bound) through exit m r := by
  rcases r with _ | ⟨_ | _ | _ | _, last⟩
  · obtain ⟨j, m'', hj, hturns, hcode⟩ := h
    exact ⟨k + j, m'', by omega, hk.trans hturns, hcode⟩
  · obtain ⟨hready, j, hturns⟩ := h
    exact ⟨hready, k + j, hk.trans hturns⟩
  · obtain ⟨hready, j, hturns⟩ := h
    exact ⟨hready, k + j, hk.trans hturns⟩
  · obtain ⟨hcode, j, pc, hturns⟩ := h
    exact ⟨hcode, k + j, pc, hk.trans hturns⟩
  · obtain ⟨j, pc, hturns⟩ := h
    exact ⟨k + j, pc, hk.trans hturns⟩

theorem of_le {bound' : Nat} (h : Lands block bound through exit m r) (hle : bound' ≤ bound) :
    Lands block bound' through exit m r := by
  rcases r with _ | ⟨_ | _ | _ | _, last⟩
  · obtain ⟨j, m'', hj, hturns, hcode⟩ := h
    exact ⟨j, m'', by omega, hturns, hcode⟩
  all_goals exact h

theorem finished (hm : Ready block m) :
    Lands block bound through exit (m.goTo through) (Run.finished m) :=
  ⟨hm, 0, .zero _⟩

theorem attempt {α : Type} {a : Address} {s : Stmt Address} (hs : block.statements[a]? = some s)
    (hm : Ready block m) {x : Action α} {goes : α → Address}
    (hexec : (Action.exec s).run ((m.trace s.pos).goTo (a + 1)) =
      Action.land (a + 1) goes (x.run (m.trace s.pos)))
    {k : α → Run}
    (hk : ∀ v m', x.run (m.trace s.pos) = (.ok v, m') →
      Lands block bound through exit (m'.goTo (goes v)) (k v m')) :
    Lands block (bound + 1) through exit (m.goTo a) (Run.attempt s.pos x k m) := by
  have hcode : (m.goTo a).code = some block := hm.code
  have hne : (m.goTo a).code ≠ none := by rw [hcode]; exact nofun
  have hturn : (m.goTo a).turn = (m.goTo a).step block s := turn_of_statement hcode hs
  have hnext : ({ m.goTo a with pc := (m.goTo a).pc + 1 } : Machine) = m.goTo (a + 1) := rfl
  rw [step, hnext, trace_goTo, hexec] at hturn
  have hone := Turns.one hne
  rw [hturn] at hone
  rw [Nat.add_comm]
  unfold Run.attempt
  cases hx : x.run (m.trace s.pos) with
  | mk r m' =>
    rw [hx] at hone
    cases r with
    | ok v => exact (hk v m' hx).after hone
    | error e => exact ⟨1, a + 1, hone⟩

theorem andThen {middle : Address} {first second : Run} {m₀ : Machine}
    (h : Lands block bound middle exit m (first m₀))
    (hsecond : ∀ m', Ready block m' →
      Lands block bound through exit (m'.goTo middle) (second m')) :
    Lands block bound through exit m (first.andThen second m₀) := by
  unfold Run.andThen
  rcases hr : first m₀ with _ | ⟨_ | _ | _ | _, last⟩
  · rwa [hr] at h
  · rw [hr] at h
    obtain ⟨hready, k, hturns⟩ := h
    exact ((hsecond last hready).after hturns).of_le (by omega)
  · rwa [hr] at h
  · rwa [hr] at h
  · rwa [hr] at h

theorem pass {closing outer : Address} {body again : Run} {m₀ : Machine} {bound' : Nat}
    (h : Lands block bound' closing through m (body m₀)) (hle : bound ≤ bound')
    (hagain : ∀ m', Ready block m' →
      Lands block bound through outer (m'.goTo closing) (again m')) :
    Lands block bound through outer m (body.pass again m₀) := by
  unfold Run.pass
  rcases hr : body m₀ with _ | ⟨_ | _ | _ | _, last⟩
  · rw [hr] at h
    exact Lands.of_le (r := none) h hle
  · rw [hr] at h
    obtain ⟨hready, k, hturns⟩ := h
    exact ((hagain last hready).after hturns).of_le (by omega)
  · rwa [hr] at h
  · rwa [hr] at h
  · rwa [hr] at h

end Lands

theorem Ready.trace {block : Block} {m : Machine} (hm : Ready block m) (pos : Pos) :
    Ready block (m.trace pos) :=
  hm.of_keeps (trace_keeps m pos).1 (trace_keeps m pos).2

theorem Ready.run {α : Type} {block : Block} {m m' : Machine} {x : Action α} {a : α}
    (hm : Ready block m) (hx : Action.Within .still x) (h : x.run m = (.ok a, m')) :
    Ready block m' := by
  have hkeeps := hx.inner.acts.keeps m
  rw [h] at hkeeps
  exact hm.of_keeps hkeeps.1 hkeeps.2

theorem exec_test {x : Action Bool} (hx : Action.Within .still x) (v : Bool) (m : Machine)
    (next there : Address) :
    (x >>= fun b => if b = v then modify fun m => { m with pc := there } else pure ()).run
        (m.goTo next) =
      Action.land next (fun b => if b = v then there else next) (x.run m) := by
  refine Action.run_land hx.inner.acts fun b m' _ => ?_
  split <;> rfl

section Loops

variable {block : Block} {N : Nat} {body : Run} {start closing : Address} {outer : Address}
  (hbody : ∀ m, Ready block m → Lands block N closing (closing + 1) (m.goTo start) (body m))
include hbody

theorem forPasses_lands {pos : Pos} {header : ForHeader Address}
    (hclosing : block.statements[closing]? = some (.next pos header)) (hstart : header.body = start)
    {k : Nat} (hk : k ≤ N) {m : Machine} (hm : Ready block m) :
    Lands block k (closing + 1) outer (m.goTo start)
      (Run.forPasses body pos (Action.anotherPass pos header.var header.limit header.step) k m) := by
  induction k generalizing m with
  | zero =>
    refine ⟨0, m.goTo start, Nat.le_refl 0, .zero _, ?_⟩
    change m.code ≠ none
    rw [hm.code]
    exact nofun
  | succ k ih =>
    refine Lands.pass (hbody m hm) hk fun m₁ hm₁ => ?_
    have hask := Action.within_anotherPass pos header.var header.limit header.step
    have hexec := exec_test hask true (m₁.trace pos) (closing + 1) header.body
    rw [← Action.advanceLoop_eq] at hexec
    refine Lands.attempt hclosing hm₁ hexec fun again m₂ h => ?_
    have hm₂ := (hm₁.trace _).run hask h
    cases again with
    | true =>
      rw [if_pos rfl, hstart]
      exact ih (by omega) hm₂
    | false => exact Lands.finished hm₂

theorem doPasses_lands {pos closePos : Pos} {top bottom : Option Guard} {header : DoHeader Address}
    (hopening : block.statements[header.top]? = some (.do pos top header))
    (hclosing : block.statements[closing]? = some (.loop closePos bottom header))
    (hstart : header.top + 1 = start) (hexit : header.exit = closing + 1)
    {k : Nat} (hk : k ≤ N) {m : Machine} (hm : Ready block m) :
    Lands block k (closing + 1) outer (m.goTo header.top)
      (Run.doPasses body pos (Action.guard top) closePos (Action.guard bottom) k m) := by
  induction k generalizing m with
  | zero =>
    refine ⟨0, m.goTo header.top, Nat.le_refl 0, .zero _, ?_⟩
    change m.code ≠ none
    rw [hm.code]
    exact nofun
  | succ k ih =>
    have htop := Action.within_guard top
    have hbottom := Action.within_guard bottom
    have hexec : (Action.exec (.do pos top header)).run ((m.trace pos).goTo (header.top + 1)) =
        Action.land (header.top + 1)
          (fun b => if b = false then header.exit else header.top + 1)
          ((Action.guard top).run (m.trace pos)) := by
      rw [← exec_test htop false, Action.exec]
      simp only [Bool.not_eq_true']
    refine Lands.attempt hopening hm hexec fun enters m₁ h => ?_
    have hm₁ := (hm.trace pos).run htop h
    cases enters with
    | false =>
      rw [if_pos rfl, hexit]
      exact Lands.finished hm₁
    | true =>
      rw [if_neg Bool.noConfusion, hstart]
      refine Lands.pass (hbody m₁ hm₁) (by omega) fun m₂ hm₂ => ?_
      have hexec₂ := exec_test hbottom true (m₂.trace closePos) (closing + 1) header.top
      refine Lands.of_le ?_ (Nat.le_succ k)
      refine Lands.attempt hclosing hm₂ hexec₂ fun again m₃ h₃ => ?_
      have hm₃ := (hm₂.trace closePos).run hbottom h₃
      cases again with
      | true => exact ih (by omega) hm₃
      | false => exact Lands.finished hm₃

end Loops

end Machine

/-! ### Whole nests -/

theorem Stmt.pos_mapExit {χ υ : Type} (f : χ → υ) (s : Stmt χ) : (s.mapExit f).pos = s.pos := by
  cases s <;> rfl

theorem Stmt.direct_mapExit {χ υ : Type} (f : χ → υ) (s : Stmt χ) :
    (s.mapExit f).direct = s.direct := by
  induction s with
  | when pos condition taken ih => exact ih
  | choose pos condition taken otherwise ih₁ ih₂ => simp only [mapExit, direct, ih₁, ih₂]
  | _ => rfl

/-- A block has these statements from an address on. -/
def Block.Holds (block : Block) (a : Address) (ss : List (Stmt Address)) : Prop :=
  ∀ i s, ss[i]? = some s → block.statements[a + i]? = some s

namespace Block.Holds

variable {block : Block} {a : Address} {s : Stmt Address} {ss ts : List (Stmt Address)}

theorem head (h : block.Holds a (s :: ss)) : block.statements[a]? = some s :=
  h 0 s rfl

theorem tail (h : block.Holds a (s :: ss)) : block.Holds (a + 1) ss := by
  intro i t ht
  rw [Nat.add_right_comm]
  exact h (i + 1) t ht

theorem left (h : block.Holds a (ss ++ ts)) : block.Holds a ss := by
  intro i t ht
  have hi := (List.getElem?_eq_some_iff.mp ht).1
  exact h i t (by rw [List.getElem?_append_left hi, ht])

theorem right (h : block.Holds a (ss ++ ts)) : block.Holds (a + ss.length) ts := by
  intro i t ht
  rw [Nat.add_assoc]
  refine h (ss.length + i) t ?_
  rw [List.getElem?_append_right (Nat.le_add_right _ _), Nat.add_sub_cancel_left, ht]

end Block.Holds

namespace Machine

theorem exec_opening (pos : Pos) (header : ForHeader Address) (m : Machine) (next : Address) :
    (Action.exec (.for pos header)).run (m.goTo next) =
      Action.land next (fun _ => next)
        ((Action.eval header.start >>= fun v => Action.store header.var v).run m) := by
  have hx : Action.Within .inner (Action.eval header.start >>= fun v => Action.store header.var v) :=
    .of_bind (Action.within_eval _).inner fun v => (Action.within_store _ v).inner
  have hrun := hx.acts.run_goTo m next
  rw [Action.exec, hrun]
  generalize (Action.eval header.start >>= fun v => Action.store header.var v).run m = r
  rcases r with ⟨_ | _, m'⟩ <;> rfl

/-- A nest that is laid out in a block is what the block does from there on. -/
theorem run_lands {block : Block} (t : Nest) {inLoop : Bool} (hproper : t.proper inLoop)
    {a exit : Address} (hholds : block.Holds a (t.layout a exit))
    (hdirect : ∀ s ∈ t.layout a exit, s.direct) (n : Nat) {m : Machine} (hm : Ready block m) :
    Lands block n (a + t.size) exit (m.goTo a) (t.run n m) := by
  induction t generalizing inLoop a exit m with
  | done => exact Lands.finished hm
  | plain s rest ih =>
    simp only [Nest.proper, Bool.and_eq_true] at hproper
    obtain ⟨⟨hloopless, -⟩, hrest⟩ := hproper
    obtain ⟨hhead, htail⟩ := List.forall_mem_cons.mp hdirect
    have hs : s.direct := by rwa [Stmt.direct_mapExit] at hhead
    have hexec := Action.exec_act s hloopless hs (hm.trace s.pos).ownNames (a + 1) exit
    unfold Nest.run
    rw [← Stmt.pos_mapExit fun _ => exit] at hexec ⊢
    refine Lands.of_le ?_ (Nat.le_succ n)
    refine Lands.attempt hholds.head hm hexec fun flow m' h => ?_
    obtain ⟨hcommands, hcode⟩ := Action.act_keeps s hloopless hs (hm.trace _).ownNames h
    have hready (hflow : flow ≠ .ended) : Ready block m' :=
      (hm.trace _).of_keeps (hcode.trans (if_neg hflow)) hcommands
    cases flow with
    | on =>
      rw [Nest.size, Nat.add_comm rest.size, ← Nat.add_assoc]
      exact ih hrest hholds.tail htail (hready (by simp))
    | left => exact ⟨hready (by simp), 0, .zero _⟩
    | ended => exact ⟨hcode, 0, a + 1, .zero _⟩
  | «for» pos var start limit step body closing rest ihb ihr =>
    simp only [Nest.proper, Bool.and_eq_true] at hproper
    obtain ⟨-, hinside⟩ := List.forall_mem_cons.mp hdirect
    obtain ⟨hbodyDirect, hafter⟩ := List.forall_mem_append.mp hinside
    have hbodyHolds := hholds.tail.left
    have hclosingHolds := hholds.tail.right
    rw [Nest.length_layout] at hclosingHolds
    have hplace (a b : Nat) : a + b + 2 = a + 1 + b + 1 := by omega
    have hthrough (a b c : Nat) : a + (b + c + 2) = a + 1 + b + 1 + c := by omega
    rw [hplace] at hbodyHolds hbodyDirect
    unfold Nest.run
    rw [Nest.size, hthrough]
    refine Lands.andThen (?_ : Lands block n (a + 1 + body.size + 1) exit _ _) fun m' hm' => ?_
    · refine Lands.of_le ?_ (Nat.le_succ n)
      refine Lands.attempt hholds.head hm (exec_opening pos _ _ _) fun _ m' h => ?_
      have hm' : Ready block m' :=
        (hm.trace pos).run (.of_bind (Action.within_eval start) fun v => Action.within_store var v) h
      exact forPasses_lands (fun m hm => ihb hproper.1 hbodyHolds hbodyDirect hm)
        hclosingHolds.head rfl (Nat.le_refl n) hm'
    · have hrest := hclosingHolds.tail
      have hrestDirect := (List.forall_mem_cons.mp hafter).2
      rw [hplace] at hrest hrestDirect
      exact ihr hproper.2 hrest hrestDirect hm'
  | «do» pos top body closing bottom rest ihb ihr =>
    simp only [Nest.proper, Bool.and_eq_true] at hproper
    obtain ⟨-, hinside⟩ := List.forall_mem_cons.mp hdirect
    obtain ⟨hbodyDirect, hafter⟩ := List.forall_mem_append.mp hinside
    have hbodyHolds := hholds.tail.left
    have hclosingHolds := hholds.tail.right
    rw [Nest.length_layout] at hclosingHolds
    have hplace (a b : Nat) : a + b + 2 = a + 1 + b + 1 := by omega
    have hthrough (a b c : Nat) : a + (b + c + 2) = a + 1 + b + 1 + c := by omega
    rw [hplace] at hbodyHolds hbodyDirect
    unfold Nest.run
    rw [Nest.size, hthrough]
    refine Lands.andThen (?_ : Lands block n (a + 1 + body.size + 1) exit _ _) fun m' hm' => ?_
    · exact doPasses_lands (fun m hm => ihb hproper.1 hbodyHolds hbodyDirect hm)
        hholds.head hclosingHolds.head rfl (hplace a body.size) (Nat.le_refl n) hm
    · have hrest := hclosingHolds.tail
      have hrestDirect := (List.forall_mem_cons.mp hafter).2
      rw [hplace] at hrest hrestDirect
      exact ihr hproper.2 hrest hrestDirect hm'

end Machine

/-! ### Whole programs -/

theorem Stmt.breaks_of_act {s : Stmt Unit} {m m' : Machine} (h : s.act.run m = (.ok .left, m')) :
    s.breaks := by
  induction s generalizing m with
  | when pos condition taken ih =>
    obtain ⟨v, m₁, -, hrest⟩ := Action.run_bind_eq_ok h
    split at hrest
    · exact ih hrest
    · cases hrest
  | choose pos condition taken otherwise ih₁ ih₂ =>
    obtain ⟨v, m₁, -, hrest⟩ := Action.run_bind_eq_ok h
    rw [breaks, Bool.or_eq_true]
    split at hrest
    · exact .inl (ih₁ hrest)
    · exact .inr (ih₂ hrest)
  | leave pos exit => rfl
  | finish pos => cases h
  | _ =>
    obtain ⟨_, m₁, -, hrest⟩ := Action.run_bind_eq_ok h
    cases hrest

namespace Run

/-- A run that does not leave the loop around it. -/
def Contained (r : Run) : Prop :=
  ∀ m m', r m ≠ some (.left, m')

theorem Contained.finished : Contained finished :=
  fun _ _ h => nomatch h

theorem Contained.attempt {α : Type} {pos : Pos} {x : Action α} {k : α → Run}
    (hk : ∀ v m m', x.run m = (.ok v, m') → Contained (k v)) : Contained (attempt pos x k) := by
  intro m m' h
  unfold Run.attempt at h
  split at h
  · rename_i v m₁ hx
    exact hk v _ m₁ hx m₁ m' h
  · cases h

theorem Contained.andThen {first second : Run} (hfirst : first.Contained)
    (hsecond : second.Contained) : (first.andThen second).Contained := by
  intro m m' h
  unfold Run.andThen at h
  split at h
  · exact hsecond _ _ h
  · exact hfirst _ _ h

theorem Contained.pass (body : Run) {again : Run} (hagain : again.Contained) :
    (body.pass again).Contained := by
  intro m m' h
  unfold Run.pass at h
  split at h
  · exact hagain _ _ h
  · cases h
  · rename_i _ hleft
    exact hleft _ h

theorem Contained.forPasses (body : Run) (closing : Pos) (another : Action Bool) (n : Nat) :
    (forPasses body closing another n).Contained := by
  induction n with
  | zero => exact fun _ _ h => nomatch h
  | succ n ih =>
    refine .pass body (.attempt fun again _ _ _ => ?_)
    split
    · exact ih
    · exact .finished

theorem Contained.doPasses (body : Run) (pos : Pos) (top : Action Bool) (closing : Pos)
    (bottom : Action Bool) (n : Nat) : (doPasses body pos top closing bottom n).Contained := by
  induction n with
  | zero => exact fun _ _ h => nomatch h
  | succ n ih =>
    refine .attempt fun enters _ _ _ => ?_
    split
    · refine .pass body (.attempt fun again _ _ _ => ?_)
      split
      · exact ih
      · exact .finished
    · exact .finished

end Run

theorem Nest.contained_run {t : Nest} (hproper : t.proper false) (n : Nat) :
    (t.run n).Contained := by
  induction t with
  | done => exact .finished
  | plain s rest ih =>
    simp only [proper, Bool.and_eq_true, Bool.false_or, Bool.not_eq_true'] at hproper
    refine .attempt fun flow m m' h => ?_
    cases flow with
    | on => exact ih hproper.2
    | left => exact absurd (Stmt.breaks_of_act h) (by simp [hproper.1.2])
    | ended =>
      intro m m' hleft
      cases hleft
  | «for» pos var start limit step body closing rest _ ih =>
    rw [proper, Bool.and_eq_true] at hproper
    exact .andThen (.attempt fun _ _ _ _ => .forPasses _ _ _ _) (ih hproper.2)
  | «do» pos top body closing bottom rest _ ih =>
    rw [proper, Bool.and_eq_true] at hproper
    exact .andThen (.doPasses _ _ _ _ _ _) (ih hproper.2)

namespace Machine

theorem goTo_abort (m : Machine) (pc : Address) (e : Error) (block : Block) (pos : Pos) :
    (m.goTo pc).abort e block pos = (m.abort e block pos).goTo pc := by
  unfold abort goTo
  dsimp only
  split <;> rfl

theorem code_abort (m : Machine) (e : Error) (block : Block) (pos : Pos) :
    (m.abort e block pos).code = none := by
  unfold abort
  dsimp only
  split <;> rfl

theorem Lands.finishes {block : Block} {bound : Nat} {exit : Address} {m last : Machine}
    {ending : Ending} (hleft : ending ≠ .left)
    (h : Lands block bound block.statements.size exit m (some (ending, last))) :
    ∃ pc, m.Finishes ((ending.conclude block last).goTo pc) := by
  cases ending with
  | through =>
    obtain ⟨hready, k, hturns⟩ := h
    have hcode : (last.goTo block.statements.size).code = some block := hready.code
    have hend : block.statements[block.statements.size]? = none :=
      Array.getElem?_eq_none (Nat.le_refl _)
    have hone := Turns.one (m := last.goTo block.statements.size) (by rw [hcode]; exact nofun)
    rw [turn_of_end hcode hend] at hone
    exact ⟨_, k + 1, hturns.trans hone, rfl⟩
  | left => exact absurd rfl hleft
  | ended =>
    obtain ⟨hcode, k, pc, hturns⟩ := h
    exact ⟨pc, k, hturns, hcode⟩
  | failed e pos =>
    obtain ⟨k, pc, hturns⟩ := h
    rw [goTo_abort] at hturns
    exact ⟨pc, k, hturns, code_abort last e block pos⟩

/-- A block that is the layout of a nest comes to an end if and only if the nest does, and leaves the
same behind. -/
theorem finishes_iff_completes {block : Block} {t : Nest} (hproper : t.proper false)
    (hlayout : block.statements.toList = t.layout 0 0)
    (hdirect : ∀ s ∈ block.statements, s.direct) {m : Machine} (hm : Ready block m)
    (hpc : m.pc = 0) (m' : Machine) :
    (∃ final, m.Finishes final ∧ final.goTo 0 = m') ↔
      ∃ final, t.Completes block m final ∧ final.goTo 0 = m' := by
  have hholds : block.Holds 0 (t.layout 0 0) := by
    intro i s hs
    rwa [Nat.zero_add, ← Array.getElem?_toList, hlayout]
  have hdirect' : ∀ s ∈ t.layout 0 0, s.direct := by
    intro s hs
    rw [← hlayout] at hs
    exact hdirect s (Array.mem_toList_iff.mp hs)
  have hstart : m.goTo 0 = m := by rw [← hpc]; rfl
  have hsize : 0 + t.size = block.statements.size := by
    rw [Nat.zero_add, ← t.length_layout 0 0, ← hlayout, Array.length_toList]
  have hlands (n : Nat) : Lands block n block.statements.size 0 m (t.run n m) := by
    have h := run_lands t hproper hholds hdirect' n hm
    rwa [hstart, hsize] at h
  have hends {n : Nat} {ending : Ending} {last : Machine} (h : t.run n m = some (ending, last)) :
      ∃ pc, m.Finishes ((ending.conclude block last).goTo pc) := by
    refine (h ▸ hlands n).finishes fun hleft => ?_
    exact Nest.contained_run hproper n m last (hleft ▸ h)
  constructor
  · rintro ⟨final, ⟨k, hturns, hcode⟩, rfl⟩
    -- The nest cannot take more turns than the flat run takes to come to its end.
    cases hrun : t.run (k + 1) m with
    | none =>
      obtain ⟨j, _, hj, hlong, -⟩ := hrun ▸ hlands (k + 1)
      have := hturns.le_of_ended hcode hlong
      omega
    | some r =>
      obtain ⟨pc, j, hturns', hcode'⟩ := hends hrun
      refine ⟨_, ⟨k + 1, r.1, r.2, hrun, rfl⟩, ?_⟩
      rw [hturns.eq_of_ended hcode hturns' hcode']
      rfl
  · rintro ⟨_, ⟨n, ending, last, hrun, rfl⟩, rfl⟩
    obtain ⟨pc, hfinishes⟩ := hends hrun
    exact ⟨_, hfinishes, rfl⟩

end Machine

end LineBasic
