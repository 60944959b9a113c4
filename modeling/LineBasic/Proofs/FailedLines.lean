import LineBasic.Proofs.LeftCalls

/-!
# Lines that fail on top of a suspended program

When a line fails that was entered on top of a suspended program, the program can still be continued:
the error leaves what was suspended alone, and also the stack of calls. So the return addresses of
the program are where they were, but on top of them are those of the line itself: one for each call
of the line that has not returned when it fails. The program gets the stack back that it had just if
there are none.
-/

namespace LineBasic

set_option autoImplicit false

namespace Stmt

/-- Whether a statement, other than a conditional one, leaves what was suspended alone. -/
def keepsPoint (commands : Std.TreeMap String Command) : Stmt Address → Bool
  | .command _ name _ _ => commands[name]?.all fun c => !c.action.departs
  | .return _ | .finish _ | .when .. | .choose .. => false
  | _ => true

/-- Whether a statement leaves both the stack of calls and what was suspended alone. -/
def isHarmless (commands : Std.TreeMap String Command) (s : Stmt Address) : Bool :=
  s.keepsCalls commands && s.keepsPoint commands

/-- Whether a statement is neither a conditional one nor the start of another program. -/
def isPlain (commands : Std.TreeMap String Command) : Stmt Address → Bool
  | .command _ name _ _ => commands[name]?.all fun c => !c.action.isRun
  | .when .. | .choose .. => false
  | _ => true

end Stmt

/-! ### What statements do to what was suspended -/

/-- Whether a deed leaves what was suspended alone. -/
def Deed.keepsPoint : Deed → Bool
  | .return | .finish => false
  | .perform c => !c.departs
  | _ => true

/-- Whether a deed is not the start of another program. -/
def Deed.isPlain : Deed → Bool
  | .perform c => !c.isRun
  | _ => true

theorem Stmt.deeds_keepsPoint {commands : Std.TreeMap String Command} {s : Stmt Address}
    (h : s.keepsPoint commands) : ∀ d ∈ s.deeds commands, d.keepsPoint := by
  cases s with
  | command pos name args literal =>
    rw [keepsPoint] at h
    rw [deeds]
    cases hc : commands[name]? with
    | none => simp [Deed.keepsPoint]
    | some c => simpa [Deed.keepsPoint, hc] using h
  | _ => first | cases h; done | simp [deeds, Deed.keepsPoint]

theorem Stmt.deeds_isPlain {commands : Std.TreeMap String Command} {s : Stmt Address}
    (h : s.isPlain commands) : ∀ d ∈ s.deeds commands, d.isPlain := by
  cases s with
  | command pos name args literal =>
    rw [isPlain] at h
    rw [deeds]
    cases hc : commands[name]? with
    | none => simp [Deed.isPlain]
    | some c => simpa [Deed.isPlain, hc] using h
  | _ => first | cases h; done | simp [deeds, Deed.isPlain]

namespace Footing.Shift

variable {d : Deed} {f f' : Footing}

theorem resume_eq {ok : Bool} (h : Shift d ok f f') (hd : d.keepsPoint) : f'.resume = f.resume := by
  cases h with
  | returnOut | finish | new | resume | restart | restartFails => cases hd
  | _ => rfl

/-- Nothing fails half-way but the start of a program that cannot be read. -/
theorem eq_of_fail (h : Shift d false f f') (hd : d.isPlain) : f' = f := by
  cases h with
  | fail => rfl
  | restartFails => cases hd

end Footing.Shift

theorem Action.unharmed_exec {s : Stmt Address} {m n : Machine} {e : Error}
    (hs : s.isPlain m.commands) (h : (exec s).run m = (.error e, n)) : n.footing = m.footing := by
  obtain ⟨d, hd, hshift⟩ := (shifts_exec m.commands s m rfl).footing
  rw [h] at hshift
  exact hshift.eq_of_fail (Stmt.deeds_isPlain hs d hd)

/-! ### Turns on top of a suspended program -/

theorem BoundedStack.Above.size_eq {α : Type} {base s : BoundedStack α} {n : Nat}
    (h : base.Above n s) : s.size = base.size + n := by
  induction h with
  | base => rfl
  | add _ a ih =>
    rw [size, BoundedStack.add, Array.size_push, ← Nat.add_assoc, ← ih]
    rfl

theorem BoundedStack.Above.eq_iff {α : Type} {base s : BoundedStack α} {n : Nat}
    (h : base.Above n s) : s = base ↔ n = 0 := by
  constructor
  · rintro rfl
    have hsize := h.size_eq
    omega
  · rintro rfl
    cases h
    rfl

namespace Machine

variable {m : Machine}

theorem turnIs_mono {kind kind' : Std.TreeMap String Command → Stmt Address → Bool} {idle idle' : Bool}
    (h : m.turnIs kind idle) (hkind : ∀ commands t, kind commands t → kind' commands t)
    (hidle : idle → idle') : m.turnIs kind' idle' := by
  unfold turnIs at h ⊢
  revert h
  cases m.upcoming? with
  | none => exact id
  | some s =>
    intro h
    obtain ⟨hok, hrest⟩ := (Bool.and_eq_true _ _).mp h
    refine (Bool.and_eq_true _ _).mpr ⟨hok, ?_⟩
    revert hrest
    cases s.enacted (m.beginning s) with
    | none => exact fun hrest => hidle hrest
    | some r => exact fun hrest => hkind _ _ hrest

theorem resume_turn (h : m.turnIs Stmt.keepsPoint true) : m.turn.resume = m.resume := by
  rcases turnIs_footing h with ⟨-, hkept⟩ | ⟨commands, t, hkind, d, hd, hshift⟩
  · exact congrArg Footing.resume hkept
  · exact hshift.resume_eq (Stmt.deeds_keepsPoint hkind d hd)

theorem resume_turn_of_atEnd (h : m.atEnd) {r : Frame × Status} (hresume : m.resume = some r) :
    m.turn.resume = some r := by
  rw [atEnd] at h
  cases hcode : m.code with
  | none =>
    rw [hcode] at h
    cases h
  | some block =>
    rw [hcode] at h
    rw [turn_of_end hcode (Option.isNone_iff_eq_none.mp h), fallOff, hresume]

/-- Whether the next turn fails, other than by starting a program that cannot be read. -/
def turnFails (m : Machine) : Bool :=
  match m.upcoming? with
  | some s => !((Action.exec s).run (m.beginning s)).1.isOk &&
    match s.enacted (m.beginning s) with
    | some (t, n) => t.isPlain n.commands
    | none => true
  | none => false

/-- An error tells the host and stops the machine. What was suspended stays, and if there is
anything, the calls stay too. -/
theorem turn_of_fails (h : m.turnFails) : m.turn.status = .stopped ∧ m.turn.resume = m.resume ∧
    m.turn.returns = (if m.resume.isNone then m.returns.clear else m.returns) ∧
    ∃ e, m.turn.pending.getLast? = some (.error e) := by
  unfold turnFails at h
  cases hupcoming : m.upcoming? with
  | none =>
    rw [hupcoming] at h
    cases h
  | some s =>
    rw [hupcoming] at h
    obtain ⟨hfails, hkind⟩ := (Bool.and_eq_true _ _).mp h
    obtain ⟨block, hcode, hpc⟩ := Option.bind_eq_some_iff.mp hupcoming
    obtain ⟨random, henacted⟩ := Action.exec_enacted s (m.beginning s)
    rw [turn_of_beginning hcode hpc]
    cases hrun : (Action.exec s).run (m.beginning s) with
    | mk r n =>
      rw [hrun] at hfails henacted
      cases r with
      | ok _ => cases hfails
      | error e =>
        have hunharmed : n.footing = { m.footing with pc := m.pc + 1 } := by
          rw [← (m.ground_beginning s).1]
          revert hkind henacted
          cases s.enacted (m.beginning s) with
          | none =>
            rintro - rfl
            rfl
          | some r =>
            obtain ⟨t, n₀⟩ := r
            rintro hplain ⟨rfl, hexec⟩
            exact Action.unharmed_exec (m := { m.beginning s with random := random }) hplain hexec.symm
        have hreturns : n.returns = m.returns := congrArg Footing.returns hunharmed
        have hresume : n.resume = m.resume := congrArg Footing.resume hunharmed
        dsimp only [abort, pushEvent]
        rw [hresume]
        split
        · refine ⟨rfl, rfl, ?_, _, List.getLast?_concat⟩
          dsimp only
          rw [hreturns]
        · exact ⟨rfl, rfl, hreturns, _, List.getLast?_concat⟩

/-! ### Errands -/

/-- What can happen after an interrupt of `origin` while it stays suspended, with the number of calls
that have not returned since. Lines may be entered, may call subroutines and may fail. No statement
forgets what was suspended or goes on with it, nothing else is suspended, and a return always
answers a call that was made since. -/
inductive Errand (origin : Machine) : Nat → Machine → Prop where
  | interrupt : Errand origin 0 origin.interrupt
  | aside {depth : Nat} {m n : Machine} (h : Errand origin depth m) (haside : Aside m n)
    (hkept : n.resume = m.resume) : Errand origin depth n
  | turn {depth : Nat} {m : Machine} (h : Errand origin depth m) (hs : m.status = .running)
    (hturn : m.turnIs Stmt.isHarmless true) : Errand origin depth m.turn
  | fallOff {depth : Nat} {m : Machine} (h : Errand origin depth m) (hs : m.status = .running)
    (hend : m.atEnd) : Errand origin depth m.turn
  | fail {depth : Nat} {m : Machine} (h : Errand origin depth m) (hs : m.status = .running)
    (hfails : m.turnFails) : Errand origin depth m.turn
  | call {depth : Nat} {m : Machine} (h : Errand origin depth m) (hs : m.status = .running)
    (hcall : m.turnIs (fun _ => Stmt.isCall) false) : Errand origin (depth + 1) m.turn
  | return {depth : Nat} {m : Machine} (h : Errand origin (depth + 1) m) (hs : m.status = .running)
    (hreturn : m.turnIs (fun _ => Stmt.isReturn) false) : Errand origin depth m.turn

/-- The place of an interrupt stays, and so do the calls up to there. -/
structure Suspends (origin : Machine) (block : Block) (depth : Nat) (m : Machine) : Prop where
  resume : m.resume = some (⟨block, origin.pc⟩, origin.status)
  returns : origin.returns.Above depth m.returns
  commands : m.commands = origin.commands

theorem commands_turn (m : Machine) : m.turn.commands = m.commands :=
  congrArg (·.2.1) (moves_turn.fixtures m)

theorem Aside.commands_eq {m n : Machine} (h : Aside m n) : n.commands = m.commands := by
  cases h with
  | wake => exact wake_keeps (fun x => x.commands) (fun _ _ => rfl) m
  | enter line => exact congrArg (·.2.1) ((moves_enter _).fixtures m)
  | interrupt => exact congrArg (·.2.1) (moves_interrupt.fixtures m)
  | _ => rfl

theorem keepsPoint_of_isCall {s : Stmt Address} (commands : Std.TreeMap String Command)
    (h : s.isCall) : s.keepsPoint commands := by
  cases s with
  | gosub => rfl
  | onGosub => rfl
  | _ => cases h

variable {origin : Machine} {block : Block} {depth : Nat}

theorem Suspends.turn (h : origin.Suspends block depth m) {depth' : Nat}
    (hresume : m.turn.resume = m.resume) (hreturns : origin.returns.Above depth' m.turn.returns) :
    origin.Suspends block depth' m.turn :=
  ⟨hresume.trans h.resume, hreturns, (commands_turn m).trans h.commands⟩

theorem Suspends.fails (h : origin.Suspends block depth m) (hfails : m.turnFails) :
    origin.Suspends block depth m.turn := by
  obtain ⟨-, hresume, hreturns, -⟩ := turn_of_fails hfails
  rw [h.resume] at hreturns
  exact h.turn hresume (hreturns ▸ h.returns)

theorem Errand.suspends (hactive : origin.status ≠ .stopped) (hcode : origin.code = some block)
    (h : origin.Errand depth m) : origin.Suspends block depth m := by
  induction h with
  | interrupt =>
    rw [interrupt_of_code hactive hcode]
    exact ⟨rfl, .base, rfl⟩
  | aside _ haside hkept ih =>
    refine ⟨hkept.trans ih.resume, ?_, haside.commands_eq.trans ih.commands⟩
    rw [haside.returns_eq]
    exact ih.returns
  | turn _ _ hturn ih =>
    have hpoint := resume_turn (turnIs_mono hturn (fun _ _ hboth => ((Bool.and_eq_true _ _).mp hboth).2)
      id)
    have hcalls := returns_turn (turnIs_mono hturn (fun _ _ hboth => ((Bool.and_eq_true _ _).mp hboth).1)
      id)
    exact ih.turn hpoint (hcalls ▸ ih.returns)
  | fallOff _ _ hend ih =>
    refine ih.turn ((resume_turn_of_atEnd hend ih.resume).trans ih.resume.symm) ?_
    rw [returns_turn_of_atEnd hend]
    exact ih.returns
  | fail _ _ hfails ih => exact ih.fails hfails
  | @call depth m _ _ hcall ih =>
    have hpoint := resume_turn (turnIs_mono hcall (fun commands _ => keepsPoint_of_isCall commands) nofun)
    obtain ⟨caller, frame, -, -, hplace⟩ := turn_of_call hcall
    have hreturns : m.turn.returns = m.returns.add ⟨caller, m.pc + 1⟩ :=
      congrArg Footing.returns hplace
    refine ih.turn hpoint ?_
    rw [hreturns]
    exact ih.returns.add _
  | @«return» depth m _ _ hreturn ih =>
    obtain ⟨stack, frame, habove, hstack⟩ : ∃ stack frame, origin.returns.Above depth stack ∧
        m.returns = stack.add frame := by
      have habove := ih.returns
      generalize m.returns = stack at habove
      cases habove with
      | add habove frame => exact ⟨_, frame, habove, rfl⟩
    have htop : m.returns.top? = some frame := hstack ▸ stack.top?_add frame
    have hfooting := turn_of_return hreturn htop
    have hreturns : m.turn.returns = m.returns.pop := congrArg Footing.returns hfooting
    refine ih.turn (congrArg Footing.resume hfooting) ?_
    rw [hreturns, hstack, stack.pop_add]
    exact habove

theorem place_cont (hs : m.status = .stopped) (hcont : m.knowsCont) {frame : Frame} {status : Status}
    (hresume : m.resume = some (frame, status)) :
    (m.enter "cont").turn.place = ⟨some frame.block, frame.addr, m.returns, status⟩ := by
  obtain ⟨typed, htyped⟩ : ∃ typed, typed = m.enter "cont" := ⟨_, rfl⟩
  have henter := htyped.trans (enter_cont hs)
  rw [← htyped]
  obtain ⟨begun, hbegun⟩ : ∃ begun, begun = typed.beginning (.command ⟨1, 1⟩ "cont" none false) :=
    ⟨_, rfl⟩
  obtain ⟨hfooting, hcommands, -⟩ := typed.ground_beginning (.command ⟨1, 1⟩ "cont" none false)
  rw [← hbegun] at hfooting hcommands
  have hpoint : begun.resume = some (frame, status) := by
    refine (congrArg Footing.resume hfooting).trans ?_
    rw [henter]
    exact hresume
  have hknows : begun.knowsCont := by
    refine knowsCont_of_commands (m := m) ?_ hcont
    rw [hcommands, henter]
  have hturn := turn_of_beginning (m := typed) (s := .command ⟨1, 1⟩ "cont" none false)
    (by rw [henter]) (by rw [henter]; rfl)
  rw [← hbegun, run_exec_cont hknows hpoint] at hturn
  have hreturns : begun.returns = m.returns := by
    refine (congrArg Footing.returns hfooting).trans ?_
    rw [henter]
    rfl
  rw [hturn, ← hreturns]
  rfl

theorem status_interrupt (m : Machine) : m.interrupt.status = .stopped := by
  by_cases hs : m.status = .stopped
  · rw [interrupt_of_stopped hs, hs]
  · unfold interrupt
    split
    · exact absurd ‹_› hs
    · rfl
    · rfl

/-- The machine when a line was entered after an interrupt of which the host has heard. -/
def withLine (m : Machine) (line : String) : Machine :=
  ({ m.interrupt with pending := [] } : Machine).enter line

theorem errand_withLine (m : Machine) (line : String) : m.Errand 0 (m.withLine line) := by
  have hdelivered : m.Errand 0 { m.interrupt with pending := [] } :=
    .aside .interrupt (.pass _ [] _ _) rfl
  have hkept := enter_of_stopped (m := { m.interrupt with pending := [] }) m.status_interrupt line
  exact .aside hdelivered (.enter _ line) hkept.1

end Machine

namespace Session

variable {s : Session} {kept : List Snapshot}

/-- A line that fails on top of a suspended program leaves the program's place and its calls, below
one return address for each call that was made since the interrupt and has not returned. The
program goes on with the calls that it had just if there is none of these. The line may use commands
of the host that print and store variables. -/
theorem failed_line_calls (h : Reachable .keepCont s kept) (hactive : s.machine.status ≠ .stopped)
    {m : Machine} {depth : Nat} (herrand : s.machine.Errand depth m) (hfails : m.turnFails) :
    ∃ block e, s.machine.code = some block ∧ m.turn.status = .stopped ∧
      m.turn.pending.getLast? = some (.error e) ∧
      m.turn.resume = some (⟨block, s.machine.pc⟩, s.machine.status) ∧
      s.machine.returns.Above depth m.turn.returns ∧
      (m.turn.returns = s.machine.returns ↔ depth = 0) ∧
      ∀ pending outputs clock,
        let prompt : Machine := { m.turn with pending := pending, outputs := outputs, clock := clock }
        (prompt.enter "cont").turn.place = { s.machine.place with returns := m.turn.returns } := by
  obtain ⟨block, hcode⟩ := Option.isSome_iff_exists.mp (h.anchored.stands hactive)
  obtain ⟨hstopped, -, -, e, htold⟩ := Machine.turn_of_fails hfails
  have hsuspends := (herrand.suspends hactive hcode).fails hfails
  refine ⟨block, e, hcode, hstopped, htold, hsuspends.resume, hsuspends.returns,
    hsuspends.returns.eq_iff, ?_⟩
  intro pending outputs clock prompt
  have hknows : prompt.knowsCont := Machine.knowsCont_of_commands hsuspends.commands h.knowsCont
  have hplace := Machine.place_cont (m := prompt) hstopped hknows hsuspends.resume
  rw [hplace, ← hcode]
  rfl

/-- A program that asks for input in a subroutine. -/
def atWork : Session :=
  let source := "gosub a\nprint 1\na: input n\nreturn\nb: x = 1 / 0\nc: return"
  ((serve ⟨Machine.new {} (.ofSeed 7), []⟩ {} (.load source)).2.serveAll
    [(.enter "run", {}), (.execute, {})]).2

theorem reachable_atWork : Reachable .keepCont atWork [] :=
  .serve (.serve (.serve (.new _ _) _ _) _ _) _ _

/-- A line that fails after its subroutine has returned, and one that fails inside of it. -/
theorem failed_line_calls_atWork : atWork.machine.status ≠ .stopped ∧
    (let m := (atWork.machine.withLine "gosub c : x = 1 / 0").turn.turn
    atWork.machine.Errand 0 m ∧ m.turnFails ∧ m.turn.returns = atWork.machine.returns ∧
      (m.turn.enter "cont").turn.place = atWork.machine.place) ∧
    (let m := (atWork.machine.withLine "gosub b").turn
    atWork.machine.Errand 1 m ∧ m.turnFails ∧ m.turn.returns ≠ atWork.machine.returns) := by
  have hreachable := reachable_atWork
  have hstands : let m := atWork.machine
      m.status ≠ .stopped ∧
      (let n := m.withLine "gosub c : x = 1 / 0"
      n.status = .running ∧ n.turnIs (fun _ => Stmt.isCall) false ∧ n.turn.status = .running ∧
        n.turn.turnIs (fun _ => Stmt.isReturn) false ∧ n.turn.turn.turnFails) ∧
      (let n := m.withLine "gosub b"
      n.status = .running ∧ n.turnIs (fun _ => Stmt.isCall) false ∧ n.turn.turnFails) := by
    decide +kernel
  generalize atWork = s at *
  obtain ⟨hactive, ⟨hs₀, hcall, hs₁, hreturn, hfails⟩, hs₀', hcall', hfails'⟩ := hstands
  have herrand := ((s.machine.errand_withLine _).call hs₀ hcall).return hs₁ hreturn
  have herrand' := (s.machine.errand_withLine _).call hs₀' hcall'
  obtain ⟨block, e, -, -, -, -, -, hreturns, hplace⟩ :=
    failed_line_calls hreachable hactive herrand hfails
  obtain ⟨block', e', -, -, -, -, -, hreturns', -⟩ :=
    failed_line_calls hreachable hactive herrand' hfails'
  refine ⟨hactive, ⟨herrand, hfails, hreturns.mpr rfl, ?_⟩, herrand', hfails', ?_⟩
  · refine (hplace _ _ _).trans ?_
    rw [hreturns.mpr rfl]
    rfl
  · exact fun heq => absurd (hreturns'.mp heq) nofun

/-- The program at work when it is continued and gets its input. -/
def answered (m : Machine) : Machine :=
  ((({ m with pending := [] } : Machine).enter "cont").execute {}).2.enter "5"

/-- A line that fails inside of a subroutine leaves its call to the program: when it is continued and
gets its input, it returns to the line instead of its own caller, and stops. Without that line it
goes on behind its call. -/
theorem program_returns_to_line : Reachable .keepCont atWork [] ∧
    (let failed := (atWork.machine.withLine "gosub b").turn.turn
    failed.status = .stopped ∧ failed.resume.isSome ∧
      failed.returns.size = atWork.machine.returns.size + 1 ∧
      ((answered failed).execute {}).1 = .stopped) ∧
    ((answered atWork.machine.interrupt).execute {}).1 = .print "1\n" := by
  refine ⟨reachable_atWork, ?_⟩
  decide +kernel

end Session

end LineBasic
