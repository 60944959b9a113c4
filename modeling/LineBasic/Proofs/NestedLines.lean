import Mathlib.Logic.Function.Iterate
import Mathlib.Logic.Relation
import LineBasic.Proofs.Suspension

/-!
# Lines on top of a suspended program

A line that is entered while a program is suspended runs on top of it. It may be interrupted and
continued itself, with other lines on top of it in the meantime. The machine has one place only for
what was suspended, but a line knows the place that it was entered from and puts it back when it
falls off its end. What it does not know is the status there: a program that waited for input is
taken to be running once a line on top of it was interrupted and continued.
-/

namespace LineBasic

set_option autoImplicit false

/-! ### Statements that stay in their line -/

def CommandAction.isCont : CommandAction → Bool
  | .builtin .cont => true
  | _ => false

namespace Stmt

/-- Whether a statement, other than a conditional one, neither leaves its line nor forgets what was
suspended. -/
def keepsLine (commands : Std.TreeMap String Command) : Stmt Address → Bool
  | .command _ name _ _ => commands[name]?.all fun c => !c.action.departs
  | s => s.inBlock

/-- Whether a statement is the command that goes on with what was suspended. -/
def isCont (commands : Std.TreeMap String Command) : Stmt Address → Bool
  | .command _ name _ _ => commands[name]?.any fun c => c.action.isCont
  | _ => false

/-- What a statement comes down to when its conditions are evaluated, with the machine that is left
to run it. -/
def enacted : Stmt Address → Machine → Option (Stmt Address × Machine)
  | .when _ condition taken, m =>
    match (Action.eval condition).run m with
    | (.ok v, m) => if v.isTruthy then taken.enacted m else none
    | (.error _, _) => none
  | .choose _ condition taken otherwise, m =>
    match (Action.eval condition).run m with
    | (.ok v, m) => if v.isTruthy then taken.enacted m else otherwise.enacted m
    | (.error _, _) => none
  | s, m => some (s, m)

end Stmt

/-- Whether a deed neither leaves the line nor forgets what was suspended. -/
def Deed.keepsLine : Deed → Bool
  | .compute | .loop _ | .miss => true
  | .perform c => !c.departs
  | _ => false

theorem Stmt.deeds_keepsLine {commands : Std.TreeMap String Command} {s : Stmt Address}
    (h : s.keepsLine commands) : ∀ d ∈ s.deeds commands, d.keepsLine := by
  cases s with
  | command pos name args literal =>
    rw [keepsLine] at h
    rw [deeds]
    cases hc : commands[name]? with
    | none => simp [Deed.keepsLine]
    | some c => simpa [Deed.keepsLine, hc] using h
  | _ => first | cases h; done | simp [deeds, Deed.keepsLine]

theorem Stmt.deeds_isCont {commands : Std.TreeMap String Command} {s : Stmt Address}
    (h : s.isCont commands) : s.deeds commands = [.perform (.builtin .cont)] := by
  cases s with
  | command pos name args literal =>
    rw [isCont] at h
    rw [deeds]
    cases hc : commands[name]? with
    | none =>
      rw [hc] at h
      cases h
    | some c =>
      rw [hc] at h
      obtain ⟨action, usage, manual⟩ := c
      rcases action with (_ | _) | _ <;> first | rfl | cases h
  | _ => cases h

/-- A statement that keeps its line goes to another place in it or waits, if it does anything. -/
theorem Footing.Shift.line {d : Deed} {ok : Bool} {f f' : Footing} (h : Shift d ok f f')
    (hd : d.keepsLine) : f'.code = f.code ∧ f'.resume = f.resume := by
  cases h with
  | fail | compute | pass | goTo | act | ask | pause => exact ⟨rfl, rfl⟩
  | _ => cases hd

namespace Action

open Machine (line)

theorem line_keepsLine {s : Stmt Address} {m : Machine} (hs : s.keepsLine m.commands) :
    ((exec s).run m).2.line = m.line := by
  obtain ⟨d, hd, hshift⟩ := (shifts_exec m.commands s m rfl).footing
  have hline := hshift.line (Stmt.deeds_keepsLine hs d hd)
  exact Prod.ext hline.1 hline.2

theorem exec_enacted (s : Stmt Address) (m : Machine) : ∃ random,
    match s.enacted m with
    | some (t, n) => n = { m with random := random } ∧ (exec s).run m = (exec t).run n
    | none => ((exec s).run m).2 = { m with random := random } := by
  have heval (condition : Expr) (m : Machine) :
      ∃ random, ((eval condition).run m).2 = { m with random := random } := by
    rw [eval_eq]
    exact ⟨_, rfl⟩
  induction s generalizing m with
  | when pos condition taken ih =>
    rw [Stmt.enacted, exec, run_bind]
    obtain ⟨random, hrandom⟩ := heval condition m
    revert hrandom
    rcases (eval condition).run m with ⟨r, n⟩
    rintro rfl
    cases r with
    | error e => exact ⟨random, rfl⟩
    | ok v =>
      dsimp only
      cases v.isTruthy with
      | true => exact ih { m with random := random }
      | false => exact ⟨random, rfl⟩
  | choose pos condition taken otherwise ih₁ ih₂ =>
    rw [Stmt.enacted, exec, run_bind]
    obtain ⟨random, hrandom⟩ := heval condition m
    revert hrandom
    rcases (eval condition).run m with ⟨r, n⟩
    rintro rfl
    cases r with
    | error e => exact ⟨random, rfl⟩
    | ok v =>
      dsimp only
      cases v.isTruthy with
      | true => exact ih₁ { m with random := random }
      | false => exact ih₂ { m with random := random }
  | _ => exact ⟨m.random, rfl, rfl⟩

/-- What a statement comes down to decides what becomes of the line: the conditions leave it
alone. -/
def Comes (s : Stmt Address) (m m' : Machine) : Prop :=
  match s.enacted m with
  | some (t, n) => n.line = m'.line ∧ (exec s).run m = (exec t).run n
  | none => ((exec s).run m).2.line = m'.line

theorem exec_comes (s : Stmt Address) (m : Machine) : Comes s m m := by
  obtain ⟨random, henacted⟩ := exec_enacted s m
  unfold Comes
  revert henacted
  cases s.enacted m with
  | none =>
    intro hrun
    dsimp only at hrun ⊢
    rw [hrun]
    rfl
  | some r =>
    rintro ⟨hn, hrun⟩
    dsimp only at hn hrun ⊢
    refine ⟨?_, hrun⟩
    rw [hn]
    rfl

theorem exec_isCont {s : Stmt Address} {m : Machine} (hs : s.isCont m.commands)
    (hok : ((exec s).run m).1.isOk) : ∃ frame status,
    m.resume = some (frame, status) ∧ ((exec s).run m).2.line = (some frame.block, none) := by
  obtain ⟨d, hd, hshift⟩ := (shifts_exec m.commands s m rfl).footing
  rw [Stmt.deeds_isCont hs, List.mem_singleton] at hd
  rw [hok] at hshift
  generalize hf : ((exec s).run m).2.footing = f at hshift
  have hline : ((exec s).run m).2.line = (f.code, f.resume) :=
    congrArg (fun f : Footing => (f.code, f.resume)) hf
  subst hd
  cases hshift with
  | resume hresume => exact ⟨_, _, hresume, hline⟩
  | act _ hdeparts => cases hdeparts

end Action

/-! ### Turns of a line -/

namespace Machine

/-- Whether the next turn runs a statement that does not fail and that comes down to one of some
kind. -/
def turnIs (m : Machine) (kind : Std.TreeMap String Command → Stmt Address → Bool) (idle : Bool) :
    Bool :=
  match m.upcoming? with
  | some s => ((Action.exec s).run (m.beginning s)).1.isOk &&
    match s.enacted (m.beginning s) with
    | some (t, n) => kind n.commands t
    | none => idle
  | none => false

/-- Whether the next turn stays in the line. -/
def turnStays (m : Machine) : Bool :=
  m.turnIs Stmt.keepsLine true

/-- Whether the next turn goes on with what was suspended. -/
def turnConts (m : Machine) : Bool :=
  m.turnIs Stmt.isCont false

/-- Whether the block that runs has no more statements. -/
def atEnd (m : Machine) : Bool :=
  m.code.any fun block => block.statements[m.pc]?.isNone

theorem line_beginning (m : Machine) (s : Stmt Address) : (m.beginning s).line = m.line := by
  unfold beginning trace
  split <;> rfl

theorem turnIs_elim {m : Machine} {kind : Std.TreeMap String Command → Stmt Address → Bool}
    {idle : Bool} (h : m.turnIs kind idle) : ∃ s,
      ((Action.exec s).run (m.beginning s)).1.isOk ∧
      m.turn = ((Action.exec s).run (m.beginning s)).2 ∧
      match s.enacted (m.beginning s) with
      | some (t, n) => kind n.commands t
      | none => idle := by
  unfold turnIs at h
  cases hs : m.upcoming? with
  | none =>
    rw [hs] at h
    cases h
  | some s =>
    rw [hs] at h
    obtain ⟨hok, hkind⟩ := (Bool.and_eq_true _ _).mp h
    refine ⟨s, hok, ?_, ?_⟩
    · obtain ⟨block, hcode, hpc⟩ := Option.bind_eq_some_iff.mp hs
      rw [turn_of_beginning hcode hpc]
      revert hok
      rcases (Action.exec s).run (m.beginning s) with ⟨r, n⟩
      cases r with
      | ok _ => exact fun _ => rfl
      | error e => nofun
    · revert hkind
      split <;> exact id

theorem line_turnStays {m : Machine} (h : m.turnStays) : m.turn.line = m.line := by
  obtain ⟨s, -, hturn, hkind⟩ := turnIs_elim h
  have hcomes := Action.exec_comes s (m.beginning s)
  rw [hturn, ← line_beginning m s]
  unfold Action.Comes at hcomes
  revert hkind hcomes
  cases s.enacted (m.beginning s) with
  | none => exact fun _ hcomes => hcomes
  | some r =>
    obtain ⟨t, n⟩ := r
    rintro hkeeps ⟨hline, hrun⟩
    rw [hrun, ← hline]
    exact Action.line_keepsLine hkeeps

theorem line_turnConts {m : Machine} (h : m.turnConts) : ∃ frame status,
    m.resume = some (frame, status) ∧ m.turn.line = (some frame.block, none) := by
  obtain ⟨s, hok, hturn, hkind⟩ := turnIs_elim h
  have hcomes := Action.exec_comes s (m.beginning s)
  have hresume : (m.beginning s).resume = m.resume := congrArg Prod.snd (line_beginning m s)
  rw [hturn, ← hresume]
  unfold Action.Comes at hcomes
  revert hkind hcomes
  cases s.enacted (m.beginning s) with
  | none => nofun
  | some r =>
    obtain ⟨t, n⟩ := r
    rintro hcont ⟨hline, hrun⟩
    have hkept : n.resume = (m.beginning s).resume := congrArg Prod.snd hline
    rw [hrun] at hok ⊢
    rw [← hkept]
    exact Action.exec_isCont hcont hok

/-! ### Nested lines -/

/-- Something that happens while a line runs and that does not end or suspend it. -/
inductive Tick : Machine → Machine → Prop where
  /-- Events are delivered, and a new call of the host begins. -/
  | pass (m : Machine) (pending : List Event) (outputs : Nat) (clock : Clock) :
    Tick m { m with pending := pending, outputs := outputs, clock := clock }
  | wake (m : Machine) : Tick m m.wake
  | answer {m : Machine} {prompt : String} {targets : List String}
    (hs : m.status = .input prompt targets) (answer : String) : Tick m (m.enter answer)
  | turn {m : Machine} (hs : m.status = .running) (h : m.turnStays) : Tick m m.turn

/-- A line comes to the command that goes on with what was suspended. -/
inductive Continues : Machine → Machine → Prop where
  | mk {m n : Machine} {line : String} (hs : m.status = .stopped)
    (hruns : (m.enter line).status = .running) (hticks : Relation.ReflTransGen Tick (m.enter line) n)
    (hs' : n.status = .running) (hcont : n.turnConts) : Continues m n.turn

/-- What a machine is at: nothing, so that a line can be entered, or a line. -/
inductive Phase where
  | prompt
  | line

/-- From the prompt to the prompt, or from the middle of a line to its end: all lines that are
entered meanwhile fall off their ends. The flag tells whether one of the lines, other than those on
top of others, was interrupted and continued. -/
inductive Nesting : Phase → Bool → Machine → Machine → Prop where
  | done (m : Machine) : Nesting .prompt false m m
  | pass {cut : Bool} {m m' : Machine} (pending : List Event) (outputs : Nat) (clock : Clock)
    (h : Nesting .prompt cut { m with pending := pending, outputs := outputs, clock := clock } m') :
    Nesting .prompt cut m m'
  | edit {cut : Bool} {m m' : Machine} {line : String} (hs : m.status = .stopped)
    (hstill : (m.enter line).status = .stopped) (h : Nesting .prompt cut (m.enter line) m') :
    Nesting .prompt cut m m'
  | enter {cut cut' : Bool} {m n m' : Machine} {line : String} (hs : m.status = .stopped)
    (hruns : (m.enter line).status = .running) (hline : Nesting .line cut (m.enter line) n)
    (h : Nesting .prompt cut' n m') : Nesting .prompt (cut || cut') m m'
  | fallOff {m : Machine} (hs : m.status = .running) (hend : m.atEnd) : Nesting .line false m m.turn
  | tick {cut : Bool} {m n m' : Machine} (htick : Tick m n) (h : Nesting .line cut n m') :
    Nesting .line cut m m'
  | interrupt {cut cut' : Bool} {m n n' m' : Machine} (hs : m.status ≠ .stopped)
    (hprompt : Nesting .prompt cut m.interrupt n) (hcont : Continues n n')
    (h : Nesting .line cut' n' m') : Nesting .line true m m'

theorem Tick.line_eq {m n : Machine} (h : Tick m n) : n.line = m.line := by
  cases h with
  | pass => rfl
  | wake =>
    unfold Machine.wake
    split
    · split <;> rfl
    · rfl
  | answer hs answer =>
    rw [enter_of_input hs]
    rfl
  | turn _ h => exact line_turnStays h

theorem line_ticks {m n : Machine} (h : Relation.ReflTransGen Tick m n) : n.line = m.line := by
  induction h with
  | refl => rfl
  | tail _ htick ih => exact htick.line_eq.trans ih

theorem Program.parent_compile {p : Program} {data : DataQueue} {source : String}
    {parent : Option Frame} {r : Block × Program × DataQueue}
    (h : p.compile data source parent = .ok r) : r.1.parent = parent := by
  unfold Program.compile at h
  cases hparse : parse source with
  | error e =>
    rw [hparse] at h
    cases h
  | ok code =>
    rw [hparse] at h
    cases h
    rfl

/-- A line at the prompt leaves what was suspended. If it runs, it knows the place. -/
theorem enter_of_stopped {m : Machine} (hs : m.status = .stopped) (line : String) :
    (m.enter line).resume = m.resume ∧ ((m.enter line).status = .running →
      ∃ b, (m.enter line).code = some b ∧ b.parent = m.resume.map (·.1)) := by
  rw [enter_of_not_input fun prompt targets => by rw [hs]; nofun]
  split
  · refine ⟨rfl, ?_⟩
    rw [hs]
    nofun
  · split
    · refine ⟨rfl, ?_⟩
      dsimp only
      rw [hs]
      nofun
    · unfold runLine compile
      cases hcompile : m.program.compile m.data _ (m.resume.map (·.1)) with
      | error e =>
        refine ⟨rfl, ?_⟩
        dsimp only [pushEvent]
        rw [hs]
        nofun
      | ok r =>
        refine ⟨rfl, fun _ => ⟨r.1, rfl, ?_⟩⟩
        exact Program.parent_compile hcompile

/-- What `cont` goes on with was suspended before the line that it stands in was entered. -/
theorem Continues.line_eq {m n : Machine} (h : Continues m n) : ∃ frame status,
    m.resume = some (frame, status) ∧ n.line = (some frame.block, none) := by
  cases h with
  | @mk n line hs hruns hticks hs' hcont =>
    obtain ⟨frame, status, hresume, hline⟩ := line_turnConts hcont
    have hkept : n.resume = (m.enter line).resume := congrArg Prod.snd (line_ticks hticks)
    rw [hkept, (enter_of_stopped hs line).1] at hresume
    exact ⟨frame, status, hresume, hline⟩

/-- What becomes of the place that was suspended. A line that still finds it when it falls off
leaves it alone; one that was continued puts it back. -/
def Restores : Phase → Bool → Machine → Machine → Prop
  | .prompt, cut, m, m' => m.status = .stopped → ∀ frame status, m.resume = some (frame, status) →
    m'.status = .stopped ∧ m'.resume = some (frame, if cut then .running else status)
  | .line, cut, m, m' => ∀ block frame, m.code = some block → block.parent = some frame →
    m'.status = .stopped ∧
      (m.resume = none → m'.resume = some (frame, .running)) ∧
      ∀ status, m.resume = some (frame, status) →
        m'.resume = some (frame, if cut then .running else status)

theorem Nesting.restores {phase : Phase} {cut : Bool} {m m' : Machine}
    (h : Nesting phase cut m m') : Restores phase cut m m' := by
  induction h with
  | done m => exact fun hs frame status hresume => ⟨hs, hresume⟩
  | pass pending outputs clock _ ih => exact ih
  | @edit cut m m' line hs hstill _ ih =>
    intro _ frame status hresume
    exact ih hstill frame status ((enter_of_stopped hs line).1.trans hresume)
  | @enter cut cut' m n m' line hs hruns _ _ ihline ih =>
    intro _ frame status hresume
    obtain ⟨hkept, hblock⟩ := enter_of_stopped hs line
    obtain ⟨block, hcode, hparent⟩ := hblock hruns
    rw [hresume] at hkept hparent
    obtain ⟨hstopped, -, hput⟩ := ihline block frame hcode hparent
    obtain ⟨hdone, hthen⟩ := ih hstopped frame _ (hput status hkept)
    refine ⟨hdone, ?_⟩
    rw [hthen]
    cases cut <;> cases cut' <;> rfl
  | @fallOff m hs hend =>
    intro block frame hcode hparent
    have hpc : block.statements[m.pc]? = none := by
      rw [atEnd, hcode] at hend
      exact Option.isNone_iff_eq_none.mp hend
    rw [turn_of_end hcode hpc, Machine.fallOff, hparent]
    refine ⟨rfl, ?_, ?_⟩
    · intro hresume
      rw [hresume]
    · intro status hresume
      rw [hresume]
      rfl
  | @tick cut m n m' htick _ ih =>
    intro block frame hcode hparent
    have hline := htick.line_eq
    have hcode' : n.code = m.code := congrArg Prod.fst hline
    have hresume' : n.resume = m.resume := congrArg Prod.snd hline
    rw [← hresume']
    exact ih block frame (hcode'.trans hcode) hparent
  | @interrupt cut cut' m n n' m' hs _ hcont _ ihprompt ih =>
    intro block frame hcode hparent
    have hinterrupt := interrupt_of_code hs hcode
    obtain ⟨-, hresume⟩ := ihprompt (by rw [hinterrupt]; rfl) ⟨block, m.pc⟩ m.status
      (by rw [hinterrupt]; rfl)
    obtain ⟨frame', status', hresume', hline⟩ := hcont.line_eq
    rw [hresume] at hresume'
    cases hresume'
    have hcode' : n'.code = some block := congrArg Prod.fst hline
    have hnone : n'.resume = none := congrArg Prod.snd hline
    obtain ⟨hstopped, hput, -⟩ := ih block frame hcode' hparent
    exact ⟨hstopped, fun _ => hput hnone, fun _ _ => hput hnone⟩

/-- The machine with a line on top of what an interrupt suspended, which has yet to run. -/
def lineOnTop (m : Machine) : Machine :=
  ({ m.interrupt with pending := [] } : Machine).enter "print 1"

/-- The same when this line was interrupted as well and is about to be continued. -/
def lineCut (m : Machine) : Machine :=
  ({ m.lineOnTop.interrupt with pending := [] } : Machine).enter "cont"

end Machine

namespace Session

open Machine (Nesting)

/-- A program that waits for input. -/
def asking : Session :=
  let loaded := (Session.serve ⟨Machine.new {} (.ofSeed 7), []⟩ {} (.load "input \"n\", n\nprint n * 2")).2
  ((loaded.serve {} (.enter "run")).2.serve {} .execute).2

theorem nesting_asking : Nesting .prompt true asking.machine.interrupt
    asking.machine.lineCut.turn.turn.turn := by
  have hstands : let m := asking.machine
      m.interrupt.status = .stopped ∧ m.lineOnTop.status = .running ∧
      m.lineOnTop.interrupt.status = .stopped ∧ m.lineCut.status = .running ∧
      m.lineCut.turnConts ∧ m.lineCut.turn.status = .running ∧ m.lineCut.turn.turnStays ∧
      m.lineCut.turn.turn.status = .running ∧ m.lineCut.turn.turn.atEnd := by
    decide +kernel
  generalize asking.machine = m at *
  obtain ⟨hsuspended, hentered, hagain, hcut, hcont, hback, hstays, hlast, hend⟩ := hstands
  have hrest : Nesting .line false m.lineCut.turn m.lineCut.turn.turn.turn :=
    .tick (.turn hback hstays) (.fallOff hlast hend)
  have hdelivered : Nesting .prompt false m.lineOnTop.interrupt
      { m.lineOnTop.interrupt with pending := [] } := .pass [] _ _ (.done _)
  have hline : Nesting .line true m.lineOnTop m.lineCut.turn.turn.turn :=
    .interrupt (by rw [hentered]; nofun) hdelivered (.mk hagain hcut .refl hcut hcont) hrest
  apply Nesting.pass [] m.interrupt.outputs m.interrupt.clock
  exact Nesting.enter (m := { m.interrupt with pending := [] }) hsuspended hentered hline (.done _)

/-- After any nesting of lines that all fall off their ends, the place where the program was
interrupted is there to go on from. Its status is the one at the interrupt unless a line right on
top of the program was interrupted and continued; then the program is taken to be running. Lines may
use commands of the host that print and store variables. -/
theorem nested_lines_resume {m m' : Machine} {block : Block} {cut : Bool}
    (hactive : m.status ≠ .stopped) (hcode : m.code = some block)
    (h : Nesting .prompt cut m.interrupt m') :
    m'.status = .stopped ∧
      m'.resume = some (⟨block, m.pc⟩, if cut then .running else m.status) := by
  have hinterrupt := Machine.interrupt_of_code hactive hcode
  have hrestores := h.restores
  rw [hinterrupt] at hrestores
  exact hrestores rfl _ _ rfl

theorem nested_lines_resume_asking : asking.machine.status = .input "n " ["n"] ∧
    Nesting .prompt true asking.machine.interrupt asking.machine.lineCut.turn.turn.turn ∧ ∃ block,
      asking.machine.code = some block ∧
        asking.machine.lineCut.turn.turn.turn.resume =
          some (⟨block, asking.machine.pc⟩, .running) := by
  have hnesting := nesting_asking
  have hstands : asking.machine.status = .input "n " ["n"] ∧ asking.machine.code.isSome := by
    decide +kernel
  generalize asking.machine = m at *
  obtain ⟨hstatus, hcode⟩ := hstands
  obtain ⟨block, hcode⟩ := Option.isSome_iff_exists.mp hcode
  obtain ⟨-, hresume⟩ := nested_lines_resume (by rw [hstatus]; nofun) hcode hnesting
  exact ⟨hstatus, hnesting, block, hcode, hresume⟩

/-- A program that waited for input does not wait any more after a line on top of it was interrupted
and continued, though all lines fell off their ends. -/
theorem waiting_not_restored : Reachable .keepCont asking [] ∧ asking.machine.status ≠ .stopped ∧
    ∃ m', Nesting .prompt true asking.machine.interrupt m' ∧
      ∀ frame, m'.resume ≠ some (frame, asking.machine.status) := by
  have hreachable : Reachable .keepCont asking [] := .serve (.serve (.serve (.new _ _) _ _) _ _) _ _
  have hnesting := nesting_asking
  have hstands : asking.machine.status ≠ .stopped ∧
      asking.machine.lineCut.turn.turn.turn.resume.map (·.2) ≠ some asking.machine.status := by
    decide +kernel
  generalize asking = s at *
  refine ⟨hreachable, hstands.1, _, hnesting, fun frame hresume => ?_⟩
  rw [hresume] at hstands
  exact hstands.2 rfl

end Session

end LineBasic
