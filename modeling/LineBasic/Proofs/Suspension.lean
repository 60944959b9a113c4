import LineBasic.Proofs.Handling

/-!
# Interrupts

An interrupt leaves a place and a status to go on with. A machine that does anything has a program to
do it in, so an interrupt always finds such a place, and `cont` puts the machine back there: nothing
of it is lost, and the host hears of the interrupt after everything that came before it.
-/

namespace LineBasic

set_option autoImplicit false

/-- The block that runs and what was suspended for it. -/
def Machine.line (m : Machine) : Option Block × Option (Frame × Status) :=
  (m.code, m.resume)

/-- Whether a statement is neither made of others nor a command and never leaves the block that
runs. -/
def Stmt.inBlock : Stmt Address → Bool
  | .assign .. | .assignElement .. | .dim .. | .map .. | .for .. | .next .. | .do .. | .loop ..
  | .leave .. | .read .. => true
  | _ => false

/-! ### Reachable machines have a block to run -/

/-- After a statement there is a block to run, or else the machine has stopped. -/
theorem Footing.Shift.lands {d : Deed} {ok : Bool} {f f' : Footing} (h : Shift d ok f f')
    (hf : f.code.isSome) : f'.code.isSome ∨ f'.status = .stopped := by
  cases h with
  | jump | call | «return» | resume | restart => exact .inl rfl
  | returnOut | finish => exact .inr rfl
  | _ => exact .inl hf

theorem Footing.Turn.stands {commands : Std.TreeMap String Command} {f f' : Footing}
    (h : Turn commands f f') : f'.status ≠ .stopped → f'.code.isSome := by
  intro hactive
  cases h with
  | idle | fallOff | fail => exact absurd rfl hactive
  | run hcode _ _ h => exact (h.lands (hcode ▸ rfl)).resolve_right hactive

namespace Machine

/-- A machine that has a block to run unless it has stopped, and that looks plain names up. -/
structure Anchored (m : Machine) : Prop where
  stands : m.status ≠ .stopped → m.code.isSome
  names : m.literalNames = false

theorem anchored_of_stopped {m : Machine} (h : m.status = .stopped) (hnames : m.literalNames = false) :
    m.Anchored :=
  ⟨fun hactive => absurd h hactive, hnames⟩

end Machine

/-- Having a block to run unless stopped is kept by hosts and turns. -/
theorem Footing.kept_stands (Start : Frame → Prop) :
    Kept Start fun f => f.status ≠ .stopped → f.code.isSome where
  handled h hf := by
    cases h with
    | wake hs | answer hs => exact fun _ => hf (by rw [hs]; nofun)
    | interrupt | halt => exact fun hactive => absurd rfl hactive
    | clear | load => exact hf
    | line | start => exact fun _ => rfl
  turn h _ := h.stands

theorem Session.Reachable.anchored {ext : Extensions} {s : Session} {kept : List Snapshot}
    (h : s.Reachable ext kept) : s.machine.Anchored :=
  ⟨(h.keeps (Footing.kept_stands _) fun hactive => absurd rfl hactive).1, h.names⟩

/-! ### Going on -/

namespace Machine

/-- Whether the name `cont` stands for the command that goes on after an interrupt. -/
def knowsCont (m : Machine) : Bool :=
  match m.commands["cont"]? with
  | some ⟨.builtin .cont, _, _⟩ => true
  | _ => false

theorem knowsCont_of_commands {m m' : Machine} (h : m'.commands = m.commands) (hm : m.knowsCont) :
    m'.knowsCont := by
  unfold knowsCont
  rw [h]
  exact hm

theorem commands_defineCommands (cs : List (String × Command)) (m : Machine) :
    (cs.foldl (fun m c => m.defineCommand c.1 c.2) m).commands =
      cs.foldl (fun table c => table.insert (Text.fold c.1) c.2) m.commands := by
  induction cs generalizing m with
  | nil => rfl
  | cons c cs ih => exact ih _

theorem commands_defineFunctions (fs : List (String × Function)) (m : Machine) :
    (fs.foldl (fun m f => m.defineFunction f.1 f.2) m).commands = m.commands := by
  induction fs generalizing m with
  | nil => rfl
  | cons f fs ih => exact ih _

theorem knowsCont_new (config : Config) (random : Random) : (new config random).knowsCont := by
  have hsame : (new config random).commands = (new {} (.ofSeed 7)).commands := by
    rw [new, commands_defineFunctions, commands_defineCommands, new, commands_defineFunctions,
      commands_defineCommands]
  refine knowsCont_of_commands hsame ?_
  decide +kernel

theorem parse_cont : parse "cont" = .ok ⟨#[.command ⟨1, 1⟩ "cont" none false], [], []⟩ := by
  decide +kernel

/-- A line at the prompt that has neither labels nor data is a block on top of what was suspended. -/
theorem enter_of_parse {m : Machine} {line : String} {statements : Array (Stmt Address)}
    (h : m.status = .stopped) (hentry : Text.trim (entry line) = line.toList)
    (hline : line.toList.isEmpty = false) (hplace : m.listing.placeNumbered? line.toList = none)
    (hparse : parse line = .ok ⟨statements, [], []⟩) : m.enter line = { m with
      program := { m.program with nextId := m.program.nextId + 1 }
      code := some ⟨m.program.nextId, statements, line, m.resume.map (·.1)⟩
      pc := 0
      status := .running } := by
  have hprompt (prompt : String) (targets : List String) : m.status ≠ .input prompt targets := by
    rw [h]
    nofun
  rw [enter_of_not_input hprompt, hentry, hplace, hline, String.ofList_toList, if_neg (by decide)]
  dsimp only [runLine, compile, Program.compile]
  rw [hparse]
  rfl

theorem enter_cont {m : Machine} (h : m.status = .stopped) : m.enter "cont" = { m with
    program := { m.program with nextId := m.program.nextId + 1 }
    code := some ⟨m.program.nextId, #[.command ⟨1, 1⟩ "cont" none false], "cont",
      m.resume.map (·.1)⟩
    pc := 0
    status := .running } :=
  enter_of_parse h (by decide) rfl rfl parse_cont

theorem run_exec_cont {m : Machine} {frame : Frame} {status : Status} (hcont : m.knowsCont)
    (hresume : m.resume = some (frame, status)) (pos : Pos) :
    (Action.exec (.command pos "cont" none false)).run m = (.ok (), { m with
      code := some frame.block, pc := frame.addr, status := status, resume := none,
      literalNames := false }) := by
  have hargs : (Action.naming false (Action.evalArgs none)).run m =
      (.ok [], { m with literalNames := false }) := rfl
  have hdone : Action.resume.run { m with literalNames := false } = (.ok (), { m with
      code := some frame.block, pc := frame.addr, status := status, resume := none,
      literalNames := false }) := by
    rw [Action.resume, Action.run_bind, Action.run_get]
    dsimp only
    rw [hresume]
    rfl
  unfold knowsCont at hcont
  split at hcont
  · rename_i hcommand
    rw [Action.exec, Action.command, Action.run_bind, Action.run_get]
    dsimp only
    rw [hcommand]
    dsimp only [Action.perform, Action.builtin]
    rw [Action.run_bind, hargs]
    dsimp only
    rw [Action.run_located, hdone]
    rfl
  · cases hcont

theorem turn_cont {m : Machine} {block : Block} {pos : Pos} {frame : Frame} {status : Status}
    (hcode : m.code = some block)
    (hs : block.statements[m.pc]? = some (.command pos "cont" none false))
    (hcont : m.knowsCont) (hnames : m.literalNames = false) (htracing : m.tracing = false)
    (hresume : m.resume = some (frame, status)) :
    m.turn = { m with
      code := some frame.block, pc := frame.addr, status := status, resume := none } := by
  have htrace : ({ m with pc := m.pc + 1 } : Machine).trace pos = { m with pc := m.pc + 1 } := by
    rw [trace, if_neg (by rw [htracing]; nofun)]
  have hrun := run_exec_cont (m := { m with pc := m.pc + 1 }) hcont hresume pos
  rw [turn_of_statement hcode hs, step]
  dsimp only [Stmt.pos]
  rw [htrace, hrun, ← hnames]

/-- The machine after an interrupt in a block and the line `cont`, which has yet to run. -/
def continuing (m : Machine) (block : Block) : Machine :=
  { m with
    program := { m.program with nextId := m.program.nextId + 1 }
    code := some ⟨m.program.nextId, #[.command ⟨1, 1⟩ "cont" none false], "cont",
      some ⟨block, m.pc⟩⟩
    pc := 0
    status := .running
    resume := some (⟨block, m.pc⟩, m.status) }

theorem enter_cont_interrupt {m : Machine} {block : Block} (h : m.status ≠ .stopped)
    (hcode : m.code = some block) : m.interrupt.enter "cont" =
      (m.continuing block).pushEvent (.error (breakError block m.pc)) := by
  rw [interrupt_of_code h hcode, enter_cont]
  · rfl
  · rfl

theorem turn_continuing {m : Machine} {block : Block} (hcode : m.code = some block)
    (hcont : m.knowsCont) (hnames : m.literalNames = false) (htracing : m.tracing = false)
    (hresume : m.resume = none) :
    (m.continuing block).turn =
      { m with program := { m.program with nextId := m.program.nextId + 1 } } := by
  have hturn : (m.continuing block).turn = { m.continuing block with
      code := some block, pc := m.pc, status := m.status, resume := none } :=
    turn_cont (m := m.continuing block) rfl rfl hcont hnames htracing rfl
  rw [hturn, ← hcode, ← hresume]
  rfl

theorem breakError_code (block : Block) (pc : Address) : (breakError block pc).code = .interrupted := by
  unfold breakError
  dsimp only
  split <;> rfl

theorem breakError_pos (block : Block) (pc : Address) :
    (breakError block pc).pos = block.statements[pc]?.map Stmt.pos := by
  unfold breakError
  dsimp only
  cases block.statements[pc]? <;> rfl

theorem execute_of_running {m : Machine} (hpending : m.pending = []) (hrunning : m.status = .running)
    (hcycles : 0 < m.config.maxCycles) (houtputs : 0 < m.config.maxOutputs) (clock : Clock) :
    m.execute clock = (runFor (m.config.maxCycles - 1)
      ({ m with clock := clock, outputs := 0 } : Machine).turn).tell := by
  have hawake : ({ m with clock := clock } : Machine).wake = { m with clock := clock } := by
    refine wake_of_not_asleep fun wake hs => ?_
    cases hrunning.symm.trans hs
  have hmay : ({ m with clock := clock, outputs := 0 } : Machine).mayStep = true := by
    simp [mayStep, hrunning, hpending, houtputs]
  obtain ⟨cycles, hsucc⟩ := Nat.exists_eq_add_of_lt hcycles
  rw [Nat.zero_add] at hsucc
  rw [execute_of_nil hpending, hawake, quantum, if_pos hrunning]
  dsimp only
  rw [hsucc, runFor_succ, if_pos hmay]
  rfl

theorem execute_continuing {m : Machine} {block : Block} (hpending : m.pending = [])
    (hcode : m.code = some block) (hcont : m.knowsCont) (hnames : m.literalNames = false)
    (htracing : m.tracing = false) (hresume : m.resume = none) (hcycles : 0 < m.config.maxCycles)
    (houtputs : 0 < m.config.maxOutputs) (clock : Clock) :
    (m.continuing block).execute clock = (runFor (m.config.maxCycles - 1) { m with
      program := { m.program with nextId := m.program.nextId + 1 }
      clock := clock, outputs := 0 }).tell := by
  have hturn := turn_continuing (m := { m with clock := clock, outputs := 0 }) hcode hcont hnames
    htracing hresume
  have hrun := execute_of_running (m := m.continuing block) hpending rfl hcycles houtputs clock
  exact hrun.trans (congrArg (fun m' => (runFor (m.config.maxCycles - 1) m').tell) hturn)

end Machine

/-- Hosts that leave `cont` as it is. -/
def Extensions.keepCont : Extensions where
  function _ _ := True
  command name _ := Text.fold name ≠ "cont"

namespace Session

variable {s : Session}

theorem Reachable.knowsCont {kept : List Snapshot} (h : Reachable .keepCont s kept) :
    s.machine.knowsCont := by
  induction h with
  | new config random => exact Machine.knowsCont_new config random
  | serve _ clock op ih =>
    exact Machine.knowsCont_of_commands (congrArg (·.2.1) (serve_fixtures _ clock op)) ih
  | print _ text ih => exact ih
  | defineConstant _ name hv ih =>
    exact Machine.knowsCont_of_commands (congrArg (·.2.1) (supply_fixtures hv)) ih
  | defineFunction _ _ ih => exact ih
  | defineCommand _ hc ih =>
    unfold Machine.knowsCont Machine.defineCommand
    rw [Std.TreeMap.getElem?_insert, if_neg]
    · exact ih
    · rw [Std.LawfulEqCmp.compare_eq_iff_eq]
      exact hc
  | snapshot _ ih => exact ih
  | restore _ _ ih => exact ih

/-- Events that wait are delivered one by one, and nothing else happens meanwhile. -/
theorem serveAll_deliver (s : Session) (clocks : List Clock)
    (h : clocks.length = s.machine.pending.length) :
    s.serveAll (clocks.map fun clock => (.execute, clock)) =
      (s.machine.pending.map .event, { s with machine := { s.machine with
        pending := [], clock := clocks.getLastD s.machine.clock } }) := by
  induction clocks generalizing s with
  | nil =>
    have hpending : s.machine.pending = [] := List.length_eq_zero_iff.mp h.symm
    obtain ⟨m, held⟩ := s
    cases m
    cases hpending
    rfl
  | cons clock clocks ih =>
    cases hpending : s.machine.pending with
    | nil =>
      rw [hpending] at h
      cases h
    | cons e rest =>
      rw [hpending] at h
      have hserve : s.serve clock .execute = (.event e, { s with machine := { s.machine with
          clock := clock, pending := rest } }) := by
        rw [serve, Machine.execute_of_cons hpending]
      rw [List.map_cons, serveAll, hserve]
      dsimp only
      rw [ih _ (Nat.succ.inj h), List.getLastD_cons]
      rfl

/-- An interrupt of anything that runs or waits, and `cont` right after it, change nothing but the
number of the next block. The host hears of the interrupt after all events that came before it, and
the report points at the statement that would have run next. The host's commands only print and store
variables. -/
theorem interrupt_cont_transparent {kept : List Snapshot} (h : Reachable .keepCont s kept)
    (hactive : s.machine.status ≠ .stopped) (hresume : s.machine.resume = none)
    (htracing : s.machine.tracing = false) (clock clock' : Clock) (clocks : List Clock)
    (hclocks : clocks.length = s.machine.pending.length + 1) :
    ∃ block, s.machine.code = some block ∧
      let report := Machine.breakError block s.machine.pc
      let done := s.serveAll ((.interrupt, clock) :: (.enter "cont", clock') ::
        clocks.map fun clock => (.execute, clock))
      let back : Machine := { s.machine with
        pending := [], clock := done.2.machine.clock
        program := { s.machine.program with nextId := s.machine.program.nextId + 1 } }
      report.code = .interrupted ∧ report.pos = block.statements[s.machine.pc]?.map Stmt.pos ∧
      done.1 = .done :: .done :: (s.machine.pending ++ [Event.error report]).map Reply.event ∧
      done.2.machine.pending = [] ∧ done.2.machine.turn = back ∧
      (0 < s.machine.config.maxCycles → 0 < s.machine.config.maxOutputs → ∀ later,
        done.2.machine.execute later = (Machine.runFor (s.machine.config.maxCycles - 1)
          { back with clock := later, outputs := 0 }).tell) := by
  obtain ⟨hstands, hnames⟩ := h.anchored
  obtain ⟨block, hcode⟩ := Option.isSome_iff_exists.mp (hstands hactive)
  refine ⟨block, hcode, ?_⟩
  intro report done back
  -- The line `cont` runs once all events up to the report are delivered.
  have hdone : done = (.done :: .done :: (s.machine.pending ++ [Event.error report]).map Reply.event,
      { s with machine := ({ s.machine with
        pending := [], clock := clocks.getLastD s.machine.clock } : Machine).continuing block }) := by
    dsimp only [done, serveAll, serve]
    rw [Machine.enter_cont_interrupt hactive hcode, serveAll_deliver]
    · rfl
    · rw [hclocks]
      exact (@List.length_append _ s.machine.pending [.error report]).symm
  have hback : back = { s.machine with
      pending := [], clock := clocks.getLastD s.machine.clock
      program := { s.machine.program with nextId := s.machine.program.nextId + 1 } } := by
    dsimp only [back]
    rw [hdone]
    rfl
  rw [hdone, hback]
  refine ⟨Machine.breakError_code _ _, Machine.breakError_pos _ _, rfl, rfl, ?_, ?_⟩
  · exact Machine.turn_continuing hcode h.knowsCont hnames htracing hresume
  · intro hcycles houtputs later
    exact Machine.execute_continuing (m := { s.machine with
      pending := [], clock := clocks.getLastD s.machine.clock }) rfl hcode h.knowsCont hnames htracing
      hresume hcycles houtputs later

/-- A session in the middle of a line, with an event that its host has not seen. -/
def midLine : Session :=
  ((Session.serve ⟨Machine.new {} (.ofSeed 7), []⟩ {} (.enter "print 1 : cls : input \"n\", n")).2.serve {}
    .execute).2

theorem interrupt_cont_transparent_midLine :
    midLine.machine.status = .running ∧ midLine.machine.pending = [.cls] ∧
      ∃ block, midLine.machine.code = some block ∧
        let report := Machine.breakError block midLine.machine.pc
        let done := midLine.serveAll [(.interrupt, {}), (.enter "cont", {}), (.execute, {}),
          (.execute, {})]
        report.pos = some ⟨1, 17⟩ ∧ done.1 = [.done, .done, .event .cls, .event (.error report)] ∧
          done.2.machine.turn = { midLine.machine with
            pending := [], clock := done.2.machine.clock
            program := { midLine.machine.program with nextId := 2 } } := by
  have hreachable : Reachable .keepCont midLine [] := .serve (.serve (.new _ _) _ _) _ _
  have hstands : midLine.machine.status = .running ∧ midLine.machine.pending = [.cls] ∧
      midLine.machine.resume.isNone = true ∧ midLine.machine.tracing = false ∧
      midLine.machine.program.nextId = 1 ∧
      (midLine.machine.code.bind fun b => b.statements[midLine.machine.pc]?.map Stmt.pos) =
        some ⟨1, 17⟩ := by
    decide +kernel
  generalize midLine = s at *
  obtain ⟨hstatus, hpending, hresume, htracing, hnext, hplace⟩ := hstands
  obtain ⟨block, hcode, -, hpos, hreplies, -, hturn, -⟩ := interrupt_cont_transparent hreachable
    (by rw [hstatus]; nofun) (Option.isNone_iff_eq_none.mp hresume) htracing {} {} [{}, {}]
    (by rw [hpending]; rfl)
  rw [hcode] at hplace
  rw [hpending] at hreplies
  rw [hnext] at hturn
  exact ⟨hstatus, hpending, block, hcode, hpos.trans hplace, hreplies, hturn⟩

end Session

end LineBasic
