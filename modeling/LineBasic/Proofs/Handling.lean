import Mathlib.Logic.Function.Iterate
import LineBasic.Proofs.Sessions
import LineBasic.Proofs.Shifts

/-!
# What hosts do to machines

Between two statements it is the host that moves a machine: it wakes it and answers it, interrupts
it, loads a source or enters a line. What this can make of the footing is said once, as for
statements. So whatever these ways and turns keep holds of every machine that a session comes to.
-/

namespace LineBasic

set_option autoImplicit false

/-- What a host can make of a footing, if it starts programs at certain places only. -/
inductive Footing.Handling (Start : Frame → Prop) : Footing → Footing → Prop where
  | wake {f : Footing} {time : Nat} (hs : f.status = .asleep time) :
    Handling Start f { f with status := .running }
  | answer {f : Footing} {prompt : String} {targets : List String}
    (hs : f.status = .input prompt targets) : Handling Start f { f with status := .running }
  | interrupt {f : Footing} {block : Block} (hs : f.status ≠ .stopped) (hcode : f.code = some block) :
    Handling Start f
      { f with code := none, status := .stopped, resume := some (⟨block, f.pc⟩, f.status) }
  | halt {f : Footing} (hcode : f.code = none) : Handling Start f { f with status := .stopped }
  | clear (f : Footing) : Handling Start f f.cleared
  | load {f : Footing} {queue data : DataQueue} {source : String} {block : Block} {program : Program}
    (h : f.cleared.program.compile queue source none = .ok (block, program, data)) :
    Handling Start f { f.cleared with program := program }
  | line {f : Footing} {queue data : DataQueue} {source : String} {block : Block} {program : Program}
    (h : f.program.compile queue source (f.resume.map (·.1)) = .ok (block, program, data)) :
    Handling Start f { f.goTo ⟨block, 0⟩ with program := program, status := .running }
  | start {frame : Frame} (h : Start frame) (f : Footing) :
    Handling Start f { f.goTo frame with status := .running }

/-- What neither hosts nor turns change. -/
structure Footing.Kept (Start : Frame → Prop) (I : Footing → Prop) : Prop where
  handled : ∀ {f f'}, Handling Start f f' → I f → I f'
  turn : ∀ {commands f f'}, Turn commands f f' → I f → I f'

/-- An error that tells of what the host did: of a source that cannot be read or of an interrupt. -/
def Error.OfHost (e : Error) : Prop :=
  (∃ (m : Machine) (source : String) (parent : Option Frame),
    (m.compile source parent).1 = .error e) ∨
  ∃ block pc, e = Machine.breakError block pc

namespace Machine

/-- A machine that the host has moved at most once. -/
structure Handled (Start : Frame → Prop) (m n : Machine) : Prop where
  footing : n.footing = m.footing ∨ Footing.Handling Start m.footing n.footing
  names : n.literalNames = m.literalNames
  fixtures : n.fixtures = m.fixtures
  pending : n.pending = m.pending ∨ ∃ e : Error, e.OfHost ∧ n.pending = m.pending ++ [.error e]

variable {Start : Frame → Prop} {P : Machine → Prop} {m : Machine}

/-! ### Calls of the host -/

theorem handled_refl (m : Machine) : m.Handled Start m :=
  ⟨.inl rfl, rfl, rfl, .inl rfl⟩

theorem handled_wake (m : Machine) : m.Handled Start m.wake := by
  unfold wake
  split
  · rename_i time hs
    split
    · exact m.handled_refl
    · exact ⟨.inr (.wake hs), rfl, rfl, .inl rfl⟩
  · exact m.handled_refl

theorem handled_interrupt (m : Machine) : m.Handled Start m.interrupt := by
  by_cases hs : m.status = .stopped
  · rw [interrupt_of_stopped hs]
    exact m.handled_refl
  · cases hcode : m.code with
    | none =>
      rw [interrupt_of_none hs hcode]
      exact ⟨.inr (.halt hcode), rfl, rfl, .inl rfl⟩
    | some block =>
      rw [interrupt_of_code hs hcode]
      exact ⟨.inr (.interrupt hs hcode), rfl, rfl, .inr ⟨_, .inr ⟨_, _, rfl⟩, rfl⟩⟩

/-- Reading a source changes nothing if it fails, and otherwise the program and its data. -/
theorem compile_cases (m : Machine) (source : String) (parent : Option Frame) :
    (∃ e, m.compile source parent = (.error e, m)) ∨ ∃ block program data,
      m.program.compile m.data source parent = .ok (block, program, data) ∧
      m.compile source parent = (.ok block, { m with program := program, data := data }) := by
  unfold compile
  cases h : m.program.compile m.data source parent with
  | error e => exact .inl ⟨e, rfl⟩
  | ok r => exact .inr ⟨r.1, r.2.1, r.2.2, rfl, rfl⟩

/-- What loading a source makes of a machine before it is read. -/
theorem load_eq (m : Machine) (source : String) : m.load source =
    compile { m with
      scope := m.scope.clear, memory := ∅, data := {}, listing := .ofSource source
      program := m.program.clear, returns := m.returns.clear, resume := none }
      (Listing.ofSource source).source none :=
  rfl

theorem handled_load (m : Machine) (source : String) : m.Handled Start (m.load source).2 := by
  have hread (n : Machine) (text : String) (hfooting : n.footing = m.footing.cleared)
      (hnames : n.literalNames = m.literalNames) (hfixtures : n.fixtures = m.fixtures)
      (hpending : n.pending = m.pending) : m.Handled Start (n.compile text none).2 := by
    rcases n.compile_cases text none with ⟨e, h⟩ | ⟨block, program, data, h, hcompile⟩
    · rw [h]
      exact ⟨.inr (hfooting ▸ .clear m.footing), hnames, hfixtures, .inl hpending⟩
    · have hprogram : n.program = m.footing.cleared.program := congrArg Footing.program hfooting
      have hloads : Footing.Handling Start m.footing { m.footing.cleared with program := program } :=
        .load (hprogram ▸ h)
      rw [hcompile]
      rw [← hfooting] at hloads
      exact ⟨.inr hloads, hnames, hfixtures, .inl hpending⟩
  rw [load_eq]
  exact hread _ _ rfl rfl rfl rfl

theorem handled_runLine (m : Machine) (line : String) : m.Handled Start (m.runLine line) := by
  unfold runLine
  rcases m.compile_cases line (m.resume.map (·.1)) with ⟨e, h⟩ | ⟨block, program, data, h, hcompile⟩
  · have he : e.OfHost := .inl ⟨m, line, m.resume.map (·.1), congrArg Prod.fst h⟩
    rw [h]
    exact ⟨.inl rfl, rfl, rfl, .inr ⟨e, he, rfl⟩⟩
  · rw [hcompile]
    exact ⟨.inr (.line h), rfl, rfl, .inl rfl⟩

theorem handled_enter (m : Machine) (line : String) : m.Handled Start (m.enter line) := by
  by_cases hinput : ∃ prompt targets, m.status = .input prompt targets
  · obtain ⟨prompt, targets, hs⟩ := hinput
    rw [enter_of_input hs]
    exact ⟨.inr (.answer hs), rfl, rfl, .inl rfl⟩
  · rw [enter_of_not_input fun prompt targets hs => hinput ⟨prompt, targets, hs⟩]
    split
    · exact m.handled_refl
    · split
      · exact ⟨.inl rfl, rfl, rfl, .inl rfl⟩
      · exact m.handled_runLine _

/-- The machine when a call of the host begins that has nothing to deliver. -/
def called (m : Machine) (clock : Clock) : Machine :=
  { ({ m with clock := clock } : Machine).wake with outputs := 0 }

theorem handled_called (Start : Frame → Prop) (m : Machine) (clock : Clock) :
    m.Handled Start (m.called clock) := by
  obtain ⟨hfooting, hnames, hfixtures, hpending⟩ := handled_wake { m with clock := clock }
  exact ⟨hfooting, hnames, hfixtures, hpending⟩

/-! ### What every call keeps -/

/-- What neither hosts nor turns change, and events that are told neither. -/
structure Kept (Start : Frame → Prop) (P : Machine → Prop) : Prop where
  handled : ∀ {m n}, m.Handled Start n → P m → P n
  turn : ∀ {m}, P m → P m.turn
  told : ∀ {m e rest}, m.pending = e :: rest → P m → P { m with pending := rest }

namespace Kept

variable (hP : Kept Start P)
include hP

theorem runFor (hm : P m) (cycles : Nat) : P (runFor cycles m) := by
  induction cycles generalizing m with
  | zero => exact hm
  | succ cycles ih =>
    rw [runFor_succ]
    split
    · exact ih (hP.turn hm)
    · exact hm

theorem quantum (hm : P m) : P m.quantum := by
  unfold Machine.quantum
  split
  · refine hP.runFor (hP.handled ?_ hm) _
    exact ⟨.inl rfl, rfl, rfl, .inl rfl⟩
  · exact hm

theorem execute (hm : P m) (clock : Clock) : P (m.execute clock).2 := by
  have hclocked : P { m with clock := clock } := by
    refine hP.handled ?_ hm
    exact ⟨.inl rfl, rfl, rfl, .inl rfl⟩
  cases hpending : m.pending with
  | cons e rest =>
    rw [execute_of_cons hpending]
    exact hP.told (m := { m with clock := clock }) hpending hclocked
  | nil =>
    have hran := hP.quantum (hP.handled (handled_wake _) hclocked)
    rw [execute_of_nil hpending]
    unfold tell
    split
    · rename_i htells
      exact hP.told htells hran
    · exact hran

theorem amid (hm : P m) (clock : Clock) (k : Nat) : P (Machine.turn^[k] (m.called clock)) := by
  induction k with
  | zero => exact hP.handled (handled_called Start m clock) hm
  | succ k ih =>
    rw [Function.iterate_succ_apply']
    exact hP.turn ih

end Kept

theorem kept_names (Start : Frame → Prop) : Kept Start fun m => m.literalNames = false where
  handled h hm := h.names.trans hm
  turn hm := (footing_turn _).2 hm
  told _ hm := hm

theorem Handled.kept {I : Footing → Prop} {n : Machine} (h : m.Handled Start n)
    (hI : ∀ {f f'}, Footing.Handling Start f f' → I f → I f') (hm : I m.footing) : I n.footing := by
  rcases h.footing with hsame | hmoved
  · rw [hsame]
    exact hm
  · exact hI hmoved hm

theorem kept_footing {I : Footing → Prop} (hI : Footing.Kept Start I) :
    Kept Start fun m => I m.footing where
  handled h hm := h.kept hI.handled hm
  turn hm := hI.turn (footing_turn _).1 hm
  told _ hm := hm

end Machine

/-! ### Sessions -/

namespace Session

variable {Start : Frame → Prop} {P : Machine → Prop} {ext : Extensions} {s : Session}

theorem handled_serve (s : Session) (clock : Clock) {op : HostOp} (hexecute : op ≠ .execute)
    (hrun : ∀ block addr, op = .run block addr → Start ⟨block, addr⟩) :
    s.machine.Handled Start (s.serve clock op).2.machine := by
  cases op with
  | load source =>
    unfold serve
    dsimp only
    exact s.machine.handled_load source
  | run block addr =>
    exact ⟨.inr (.start (hrun block addr rfl) s.machine.footing), rfl, rfl, .inl rfl⟩
  | enter line => exact s.machine.handled_enter line
  | execute => exact absurd rfl hexecute
  | interrupt => exact s.machine.handled_interrupt
  | setListing listing => exact ⟨.inl rfl, rfl, rfl, .inl rfl⟩
  | store name value =>
    unfold serve
    dsimp only
    split
    · rename_i hsupply
      obtain ⟨heap, hheap⟩ := supply_machine hsupply
      dsimp only
      rw [hheap]
      exact ⟨.inl rfl, rfl, rfl, .inl rfl⟩
    · exact s.machine.handled_refl
  | fetch name => exact s.machine.handled_refl

theorem serve_keeps (hP : Machine.Kept Start P) (hs : P s.machine) (clock : Clock) {op : HostOp}
    (hrun : ∀ block addr, op = .run block addr → Start ⟨block, addr⟩) :
    P (s.serve clock op).2.machine := by
  by_cases hexecute : op = .execute
  · subst hexecute
    exact hP.execute hs clock
  · exact hP.handled (s.handled_serve clock hexecute hrun) hs

theorem serveAll_keeps (hP : Machine.Kept (fun _ => True) P) (hs : P s.machine)
    (ops : List (HostOp × Clock)) : P (s.serveAll ops).2.machine := by
  induction ops generalizing s with
  | nil => exact hs
  | cons op ops ih => exact ih (serve_keeps hP hs op.2 fun _ _ _ => trivial)

end Session

namespace Machine

theorem toSnapshot_defineCommands (cs : List (String × Command)) (m : Machine) :
    (cs.foldl (fun m c => m.defineCommand c.1 c.2) m).toSnapshot = m.toSnapshot := by
  induction cs generalizing m with
  | nil => rfl
  | cons c cs ih => exact ih _

theorem toSnapshot_defineFunctions (fs : List (String × Function)) (m : Machine) :
    (fs.foldl (fun m f => m.defineFunction f.1 f.2) m).toSnapshot = m.toSnapshot := by
  induction fs generalizing m with
  | nil => rfl
  | cons f fs ih => exact ih _

theorem toSnapshot_new (config : Config) (random : Random) : (new config random).toSnapshot =
    { scope := .standard, data := {}, memory := ∅, returns := noReturns, code := none, pc := 0,
      resume := none, status := .stopped, program := {}, listing := {}, tracing := false } := by
  unfold new
  dsimp only
  rw [toSnapshot_defineFunctions, toSnapshot_defineCommands]

end Machine

namespace Session.Reachable

variable {ext : Extensions} {s : Session} {kept : List Snapshot}

/-- What holds of the footing of a new machine and is kept holds of every machine that a session
comes to, and of the snapshots that the host took. -/
theorem keeps {I : Footing → Prop} (h : Reachable ext s kept) (hI : Footing.Kept (fun _ => True) I)
    (hnew : I ⟨none, 0, Machine.noReturns, none, .stopped, {}⟩) :
    I s.machine.footing ∧ ∀ snap ∈ kept, I snap.footing := by
  induction h with
  | new config random =>
    rw [Machine.toSnapshot_new]
    exact ⟨hnew, nofun⟩
  | serve _ clock op ih =>
    exact ⟨serve_keeps (Machine.kept_footing hI) ih.1 clock fun _ _ _ => trivial, ih.2⟩
  | defineConstant _ name hv ih =>
    obtain ⟨heap, hheap⟩ := supply_machine hv
    refine ⟨?_, ih.2⟩
    dsimp only
    rw [hheap]
    exact ih.1
  | print _ _ ih | defineFunction _ _ ih | defineCommand _ _ ih => exact ih
  | snapshot _ ih => exact ⟨ih.1, List.forall_mem_cons.mpr ⟨ih.1, ih.2⟩⟩
  | restore _ hsnap ih => exact ⟨ih.2 _ hsnap, ih.2⟩

/-- Between calls of the host plain names are looked up. -/
theorem names (h : Reachable ext s kept) : s.machine.literalNames = false := by
  induction h with
  | new config random => rfl
  | serve _ clock op ih =>
    exact serve_keeps (Machine.kept_names fun _ => True) ih clock fun _ _ _ => trivial
  | defineConstant _ name hv ih =>
    obtain ⟨heap, hheap⟩ := supply_machine hv
    dsimp only
    rw [hheap]
    exact ih
  | print _ _ ih | defineFunction _ _ ih | defineCommand _ _ ih | snapshot _ ih | restore _ _ ih =>
    exact ih

end Session.Reachable

end LineBasic
