import LineBasic.Proofs.Calls
import LineBasic.Proofs.Polling

/-!
# Calls that are left behind

A machine that has stopped with nothing to continue should have no calls to return from, so that a
`return` at the prompt ends there. The end of a program by `end`, by a `return` without a call and by
an error forgets all calls, and so does the start of another program. Falling off the end does not:
a program that does so inside of a subroutine strays, and leaves its calls to the next line. That is
the only way: as long as no call of the host strays, a machine that has stopped is either suspended
or has no calls.
-/

namespace LineBasic

set_option autoImplicit false

/-! ### How statements stop a machine -/

namespace Footing

variable {commands : Std.TreeMap String Command} {f f' : Footing}

/-- A statement that stops a machine forgets all calls. -/
theorem Shift.settles {d : Deed} {ok : Bool} (h : Shift d ok f f') (hactive : f.status ≠ .stopped)
    (hresume : ∀ r ∈ f.resume, r.2 ≠ .stopped) :
    (∀ r ∈ f'.resume, r.2 ≠ .stopped) ∧ (f'.status = .stopped → f'.returns.size = 0) := by
  have hnone (r : Frame × Status) (hr : r ∈ (none : Option (Frame × Status))) : r.2 ≠ .stopped := by
    cases hr
  cases h with
  | returnOut => exact ⟨hnone, fun _ => rfl⟩
  | finish => exact ⟨hnone, fun _ => rfl⟩
  | ask prompt targets => exact ⟨hresume, fun hs => nomatch hs⟩
  | pause wake => exact ⟨hresume, fun hs => nomatch hs⟩
  | new => exact ⟨hnone, fun hs => absurd hs hactive⟩
  | resume hkept => exact ⟨hnone, fun hs => absurd hs (hresume _ hkept)⟩
  | restart => exact ⟨hnone, fun hs => nomatch hs⟩
  | restartFails => exact ⟨hnone, fun _ => rfl⟩
  | _ => exact ⟨hresume, fun hs => absurd hs hactive⟩

/-- A machine that stops for good in a turn has no calls, unless it fell off the end of a program with
some. -/
theorem Turn.settles (h : Turn commands f f') (hactive : f.status ≠ .stopped) (hcode : f.code.isSome)
    (hresume : ∀ r ∈ f.resume, r.2 ≠ .stopped)
    (hend : ∀ block, f.code = some block → block.statements[f.pc]? = none → block.parent = none →
      f.resume = none → f.returns.size = 0) :
    (∀ r ∈ f'.resume, r.2 ≠ .stopped) ∧
      (f'.status = .stopped → f'.resume = none → f'.returns.size = 0) := by
  cases h with
  | idle hnone =>
    rw [hnone] at hcode
    cases hcode
  | @fallOff block hblock hpc =>
    unfold fallenOff
    dsimp only
    split
    · refine ⟨?_, fun _ hnone => nomatch hnone⟩
      rintro r ⟨⟩
      exact fun hs => nomatch hs
    · rename_i hsuspended
      refine ⟨hresume, fun _ hnone => hend block hblock hpc ?_ hnone⟩
      cases hparent : block.parent with
      | none => rfl
      | some parent => exact absurd hparent (hsuspended parent hnone)
  | run _ _ _ hshift =>
    obtain ⟨hlater, hreturns⟩ := hshift.settles hactive hresume
    exact ⟨hlater, fun hs _ => hreturns hs⟩
  | fail _ _ _ hshift =>
    refine ⟨(hshift.settles hactive hresume).1, fun _ hnone => ?_⟩
    unfold failed at hnone ⊢
    dsimp only at hnone ⊢
    rw [hnone]
    rfl

/-- What should hold of every machine between turns: it has a block to run unless it has stopped, and
then it is suspended or has no calls. -/
structure Tidy (f : Footing) : Prop where
  stands : f.status ≠ .stopped → f.code.isSome
  resume : ∀ r ∈ f.resume, r.2 ≠ .stopped
  clean : f.status = .stopped → f.resume = none → f.returns.size = 0

/-- The host leaves things tidy, wherever it starts a program. -/
theorem Handling.tidy {Start : Frame → Prop} (h : Handling Start f f') (hf : f.Tidy) : f'.Tidy := by
  refine ⟨(kept_stands Start).handled h hf.stands, ?_, ?_⟩
  · cases h with
    | interrupt hs =>
      rintro r ⟨⟩
      exact hs
    | clear | load => exact nofun
    | _ => exact hf.resume
  · cases h with
    | interrupt => exact fun _ hnone => nomatch hnone
    | halt hcode =>
      refine fun _ => hf.clean (by_contra fun hactive => ?_)
      have hblock := hf.stands hactive
      rw [hcode] at hblock
      cases hblock
    | clear | load => exact fun _ _ => rfl
    | _ => exact fun hs => nomatch hs

end Footing

/-! ### Turns -/

/-- A machine that has stopped for good with calls that have not returned. -/
structure Snapshot.Littered (s : Snapshot) : Prop where
  stopped : s.status = .stopped
  resume : s.resume = none
  returns : s.returns.size ≠ 0

namespace Machine

variable {m : Machine}

/-- Whether the next turn falls off the end of a program, rather than of a line on top of one, with
calls that have not returned. -/
def strays (m : Machine) : Bool :=
  m.resume.isNone && m.returns.size != 0 &&
    m.code.any fun block => block.parent.isNone && block.statements[m.pc]?.isNone

theorem littered_of_strays (h : m.strays) : m.turn.Littered := by
  simp only [strays, Bool.and_eq_true, Option.isNone_iff_eq_none, bne_iff_ne] at h
  obtain ⟨⟨hresume, hreturns⟩, hend⟩ := h
  cases hcode : m.code with
  | none =>
    rw [hcode] at hend
    cases hend
  | some block =>
    rw [hcode] at hend
    obtain ⟨hparent, hpc⟩ := (Bool.and_eq_true _ _).mp hend
    rw [turn_of_end hcode (Option.isNone_iff_eq_none.mp hpc)]
    refine ⟨rfl, ?_, hreturns⟩
    dsimp only [fallOff]
    rw [hresume, Option.isNone_iff_eq_none.mp hparent]

/-- All turns but those that stray leave things tidy. -/
theorem tidy_turn (h : m.footing.Tidy) (hs : m.status = .running) (hstray : m.strays = false) :
    m.turn.footing.Tidy := by
  have hactive : m.status ≠ .stopped := by
    rw [hs]
    nofun
  have hend (block : Block) (hcode : m.code = some block) (hpc : block.statements[m.pc]? = none)
      (hparent : block.parent = none) (hresume : m.resume = none) : m.returns.size = 0 := by
    by_contra hreturns
    simp [strays, hresume, hreturns, hcode, hparent, hpc] at hstray
  obtain ⟨hresume, hreturns⟩ :=
    m.footing_turn.1.settles hactive (h.stands hactive) h.resume hend
  exact ⟨m.footing_turn.1.stands, hresume, hreturns⟩

/-! ### Calls of the host -/

/-- Whether one of the next turns strays, of which there are at most `cycles`. -/
def straysFor : Nat → Machine → Bool
  | 0, _ => false
  | cycles + 1, m => m.mayStep && (m.strays || straysFor cycles m.turn)

/-- Whether the machine strays when the host asks for the next event. -/
def straysAt (m : Machine) (clock : Clock) : Bool :=
  m.pending.isEmpty && straysFor m.config.maxCycles (m.called clock)

theorem running_of_mayStep (h : m.mayStep) : m.status = .running := by
  simp only [mayStep, Bool.and_eq_true, beq_iff_eq] at h
  exact h.1.1

theorem tidy_runFor {cycles : Nat} (h : m.footing.Tidy) (hstray : straysFor cycles m = false) :
    (runFor cycles m).footing.Tidy := by
  induction cycles generalizing m with
  | zero => exact h
  | succ cycles ih =>
    rw [runFor_succ]
    split
    · rename_i hmay
      rw [straysFor, hmay, Bool.true_and, Bool.or_eq_false_iff] at hstray
      exact ih (tidy_turn h (running_of_mayStep hmay) hstray.1) hstray.2
    · exact h

theorem littered_runFor {cycles : Nat} (hstray : straysFor cycles m) :
    (runFor cycles m).Littered := by
  induction cycles generalizing m with
  | zero => cases hstray
  | succ cycles ih =>
    obtain ⟨hmay, hrest⟩ := (Bool.and_eq_true _ _).mp hstray
    rw [runFor_succ, if_pos hmay]
    rcases (Bool.or_eq_true _ _).mp hrest with hnow | hlater
    · have hlittered := littered_of_strays hnow
      rw [runFor_of_not_running (by rw [hlittered.stopped]; nofun)]
      exact hlittered
    · exact ih hlater

/-- A machine that is called makes its turns, if it is awake; only its count of outputs may be an
older one otherwise. -/
theorem quantum_called (m : Machine) (clock : Clock) : ∃ outputs,
    ({ m with clock := clock } : Machine).wake.quantum =
      { runFor m.config.maxCycles (m.called clock) with outputs := outputs } := by
  have hconfig : ({ m with clock := clock } : Machine).wake.config = m.config := wake_config _
  unfold called
  generalize ({ m with clock := clock } : Machine).wake = woken at hconfig ⊢
  rw [← hconfig]
  by_cases hs : woken.status = .running
  · exact ⟨_, if_pos hs⟩
  · refine ⟨woken.outputs, (if_neg hs).trans ?_⟩
    rw [runFor_of_not_running]
    exact hs

theorem execute_snapshot (h : m.pending = []) (clock : Clock) : (m.execute clock).2.toSnapshot =
    (runFor m.config.maxCycles (m.called clock)).toSnapshot := by
  have htell (n : Machine) : n.tell.2.toSnapshot = n.toSnapshot := by
    unfold tell
    split <;> rfl
  obtain ⟨outputs, hquantum⟩ := quantum_called m clock
  rw [execute_of_nil h, htell, hquantum]

theorem tidy_execute {clock : Clock} (h : m.footing.Tidy) (hstray : m.straysAt clock = false) :
    (m.execute clock).2.footing.Tidy := by
  cases hpending : m.pending with
  | cons e rest =>
    rw [execute_of_cons hpending]
    exact h
  | nil =>
    rw [straysAt, hpending, List.isEmpty_nil, Bool.true_and] at hstray
    rw [execute_snapshot hpending]
    exact tidy_runFor ((handled_called (fun _ => True) m clock).kept Footing.Handling.tidy h) hstray

theorem littered_execute {clock : Clock} (hstray : m.straysAt clock) :
    (m.execute clock).2.Littered := by
  obtain ⟨hempty, hrest⟩ := (Bool.and_eq_true _ _).mp hstray
  rw [execute_snapshot (List.isEmpty_iff.mp hempty)]
  exact littered_runFor hrest

/-! ### A return at the prompt -/

theorem parse_return : parse "return" = .ok ⟨#[.return ⟨1, 1⟩], [], []⟩ := by
  decide +kernel

theorem performed_of_not_running (h : m.status ≠ .running) (cycles : Nat) :
    performed cycles m = [] := by
  cases cycles with
  | zero => rfl
  | succ cycles => simp [performed, mayStep, h]

theorem turn_of_lone_return {block : Block} {pos : Pos} (hcode : m.code = some block)
    (hpc : block.statements[m.pc]? = some (.return pos)) (hreturns : m.returns.size = 0) :
    m.turn.status = .stopped ∧ m.turn.code = none ∧
      m.turn.pending = (m.beginning (.return pos)).pending := by
  have htop : (m.beginning (.return pos)).returns.top? = none := by
    have hkept : (m.beginning (.return pos)).returns = m.returns :=
      congrArg Footing.returns (m.ground_beginning _).1
    rw [hkept, BoundedStack.top?, Array.eq_empty_of_size_eq_zero hreturns]
    rfl
  have hrun : (Action.exec (.return pos)).run (m.beginning (.return pos)) =
      Action.terminate.run (m.beginning (.return pos)) := by
    rw [Action.exec, Action.goBack, Action.run_bind, Action.run_get]
    dsimp only
    rw [htop]
  rw [turn_of_beginning hcode hpc, hrun]
  exact ⟨rfl, rfl, rfl⟩

/-- A return at the prompt of a machine without calls runs no other statement, and tells no more
than that the machine has stopped, unless statements are traced. -/
theorem return_at_prompt (hs : m.status = .stopped) (hreturns : m.returns.size = 0)
    (hpending : m.pending = []) (hcycles : 0 < m.config.maxCycles)
    (houtputs : 0 < m.config.maxOutputs) (clock : Clock) :
    performed m.config.maxCycles ((m.enter "return").called clock) = [.return ⟨1, 1⟩] ∧
      ((m.enter "return").execute clock).1 = (if m.tracing then .print "[1]" else .stopped) ∧
      ((m.enter "return").execute clock).2.status = .stopped ∧
      ((m.enter "return").execute clock).2.code = none := by
  have henter := enter_of_parse hs (by decide) rfl rfl parse_return
  obtain ⟨typed, htyped⟩ : ∃ typed, typed = m.enter "return" := ⟨_, rfl⟩
  rw [← htyped] at henter ⊢
  have hrunning : typed.status = .running := by rw [henter]
  have hquiet : typed.pending = [] := by rw [henter]; exact hpending
  have hconfig : typed.config = m.config := by rw [henter]
  have hcalled : typed.called clock = { typed with clock := clock, outputs := 0 } := by
    rw [called, wake_of_not_asleep]
    intro wake hasleep
    cases hrunning.symm.trans hasleep
  have hmay : (typed.called clock).mayStep = true := by
    rw [hcalled]
    simp [mayStep, hrunning, hquiet, hconfig, houtputs]
  have hupcoming : (typed.called clock).upcoming? = some (.return ⟨1, 1⟩) := by
    rw [hcalled, henter]
    rfl
  obtain ⟨block, hcode, hpc⟩ := Option.bind_eq_some_iff.mp hupcoming
  obtain ⟨hstopped, hdone, hsaid⟩ := turn_of_lone_return hcode hpc (by
    rw [hcalled, henter]
    exact hreturns)
  have hover : (typed.called clock).turn.status ≠ .running := by
    rw [hstopped]
    rintro ⟨⟩
  have hexecute := execute_of_running hquiet hrunning (hconfig ▸ hcycles) (hconfig ▸ houtputs) clock
  rw [← hcalled, runFor_of_not_running hover] at hexecute
  refine ⟨?_, ?_, ?_⟩
  · obtain ⟨cycles, hsucc⟩ := Nat.exists_eq_add_of_lt hcycles
    rw [hsucc, Nat.zero_add, performed, if_pos hmay, hupcoming, performed_of_not_running hover]
    rfl
  · have htold : (typed.called clock).turn.pending =
        if m.tracing then [.print "[1]"] else [] := by
      rw [hsaid, beginning, trace, hcalled, henter]
      dsimp only
      split
      · dsimp only [emit]
        rw [hpending]
        rfl
      · exact hpending
    rw [hexecute, tell, htold]
    cases m.tracing with
    | true => rfl
    | false => simp [statusEvent, hstopped]
  · rw [hexecute]
    unfold tell
    split <;> exact ⟨hstopped, hdone⟩

end Machine

/-! ### Sessions -/

namespace Session

open Machine (performed)

variable {s : Session}

/-- Sessions in which no call of the host strays. The host may supply any commands that print and store
variables, and any functions. -/
inductive Unstrayed : Session → Prop where
  | new (config : Config) (random : Random) : Unstrayed ⟨Machine.new config random, []⟩
  | define {s : Session} (h : Unstrayed s) (commands : Std.TreeMap String Command)
    (functions : Std.TreeMap String Function) : Unstrayed
      { s with machine := { s.machine with commands := commands, functions := functions } }
  | serve {s : Session} (h : Unstrayed s) (clock : Clock) (op : HostOp)
    (hstray : op = .execute → s.machine.straysAt clock = false) : Unstrayed (s.serve clock op).2

theorem serve_tidy (h : s.machine.footing.Tidy) (clock : Clock) {op : HostOp}
    (hstray : op = .execute → s.machine.straysAt clock = false) :
    (s.serve clock op).2.machine.footing.Tidy := by
  by_cases hexecute : op = .execute
  · subst hexecute
    exact Machine.tidy_execute h (hstray rfl)
  · have hhandled : s.machine.Handled (fun _ => True) (s.serve clock op).2.machine :=
      s.handled_serve clock hexecute fun _ _ _ => trivial
    exact hhandled.kept Footing.Handling.tidy h

theorem Unstrayed.tidy (h : s.Unstrayed) : s.machine.footing.Tidy := by
  induction h with
  | new config random =>
    rw [Machine.toSnapshot_new]
    exact ⟨fun hactive => absurd rfl hactive, nofun, fun _ _ => rfl⟩
  | define _ _ _ ih => exact ih
  | serve _ clock op hstray ih => exact serve_tidy ih clock hstray

/-- As long as no call of the host strays, a machine that has stopped with nothing to continue has
no calls, and a `return` at the prompt runs nothing of any program; and a call of the host leaves
such calls behind just if it strays. -/
theorem stopped_without_calls (h : s.Unstrayed) :
    (s.machine.status = .stopped → s.machine.resume = none → s.machine.returns.size = 0 ∧
      (s.machine.pending = [] → 0 < s.machine.config.maxCycles → 0 < s.machine.config.maxOutputs →
        ∀ clock, let typed := s.machine.enter "return"
          performed s.machine.config.maxCycles (typed.called clock) = [.return ⟨1, 1⟩] ∧
          (typed.execute clock).1 = (if s.machine.tracing then .print "[1]" else .stopped) ∧
          (typed.execute clock).2.status = .stopped ∧ (typed.execute clock).2.code = none)) ∧
    ∀ clock, s.machine.straysAt clock ↔ (s.machine.execute clock).2.Littered := by
  have htidy := h.tidy
  constructor
  · intro hs hresume
    have hreturns : s.machine.returns.size = 0 := htidy.clean hs hresume
    exact ⟨hreturns, fun hpending hcycles houtputs clock =>
      Machine.return_at_prompt hs hreturns hpending hcycles houtputs clock⟩
  · intro clock
    refine ⟨Machine.littered_execute, fun hlittered => ?_⟩
    by_contra hstray
    have hleft := Machine.tidy_execute htidy (Bool.eq_false_iff.mpr hstray)
    exact hlittered.returns (hleft.clean hlittered.stopped hlittered.resume)

/-- A session in which a program was started. -/
def started (source : String) : Session :=
  ((serve ⟨Machine.new {} (.ofSeed 7), []⟩ {} (.load source)).2.serve {} (.enter "run")).2

theorem unstrayed_started (source : String) : (started source).Unstrayed :=
  .serve (.serve (.new {} (.ofSeed 7)) {} (.load source) nofun) {} (.enter "run") nofun

/-- A session whose program has returned from its subroutine and ended. -/
def finished : Session :=
  ((started "gosub a\nend\na: return").serve {} .execute).2

/-- A session whose program will end inside of its subroutine. -/
def straying : Session :=
  started "gosub a\nprint 1\na: print 2"

theorem stopped_without_calls_finished :
    (finished.Unstrayed ∧ finished.machine.status = .stopped ∧
      finished.machine.returns.size = 0 ∧
      ((finished.machine.enter "return").execute {}).1 = .stopped) ∧
    straying.Unstrayed ∧ straying.machine.straysAt {} ∧ (straying.machine.execute {}).2.Littered := by
  have hfinishes : (started "gosub a\nend\na: return").machine.straysAt {} = false := by
    decide +kernel
  have hunstrayed : finished.Unstrayed := .serve (unstrayed_started _) {} .execute fun _ => hfinishes
  have hunstrayed' : straying.Unstrayed := unstrayed_started _
  have hstands : finished.machine.status = .stopped ∧ finished.machine.resume.isNone ∧
      finished.machine.pending = [] ∧ 0 < finished.machine.config.maxCycles ∧
      0 < finished.machine.config.maxOutputs ∧ finished.machine.tracing = false ∧
      straying.machine.straysAt {} := by
    decide +kernel
  generalize finished = s at *
  generalize straying = t at *
  obtain ⟨hs, hresume, hpending, hcycles, houtputs, htracing, hstray⟩ := hstands
  obtain ⟨hreturns, hreturn⟩ := (stopped_without_calls hunstrayed).1 hs
    (Option.isNone_iff_eq_none.mp hresume)
  obtain ⟨-, htold, -⟩ := hreturn hpending hcycles houtputs {}
  rw [htracing] at htold
  exact ⟨⟨hunstrayed, hs, hreturns, htold⟩, hunstrayed', hstray,
    ((stopped_without_calls hunstrayed').2 {}).mp hstray⟩

/-- A session whose program fell off its end inside of a subroutine and was erased then. -/
def erased : Session :=
  ((started "gosub sub\nprint \"left\"\nend\nsub: print \"sub\"").serveAll
    [(.execute, {}), (.execute, {}), (.enter "new", {}), (.execute, {})]).2

/-- A `return` at the prompt runs a statement of the program that was erased. -/
theorem erased_program_returns : Reachable .keepCont erased [] ∧
    erased.machine.status = .stopped ∧ erased.machine.pending = [] ∧
    erased.machine.resume.isNone ∧ erased.machine.listing.source = "" ∧
    erased.machine.returns.size ≠ 0 ∧
    ((erased.machine.enter "return").execute {}).1 = .print "left\n" := by
  refine ⟨?_, ?_⟩
  · exact .serve (.serve (.serve (.serve (.serve (.serve (.new _ _) _ _) _ _) _ _) _ _) _ _) _ _
  · decide +kernel

end Session

end LineBasic
