import LineBasic.Proofs.FairStatements
import LineBasic.Proofs.ProperPlaces
import LineBasic.Proofs.Suspension
import LineBasic.Proofs.Voices

/-!
# Machines in good order

A machine that only knows proper places, that has a program to run unless it has stopped, and that
looks plain names up, stays so through every turn and every call of the host. So no statement fails
over the interpreter instead of the program, and no event tells of such a failure.
-/

namespace LineBasic

set_option autoImplicit false

/-- An event that tells of no failure of the interpreter. -/
def Event.Ordinary : Event → Prop
  | .error e => e.Ordinary
  | _ => True

theorem Event.ordinary_of_isCalm {event : Event} (h : event.isCalm) : event.Ordinary := by
  cases event with
  | error e => cases h
  | _ => trivial

namespace Machine

/-- A machine with the built-in commands that knows proper places only and complains about nothing but
programs. -/
structure Proper (m : Machine) : Prop extends m.Anchored, m.Equipped where
  places : m.footing.Proper
  pending : ∀ event ∈ m.pending, event.Ordinary

variable {m : Machine}

theorem Equipped.of_fixtures {n : Machine} (h : m.Equipped) (hfixtures : n.fixtures = m.fixtures) :
    n.Equipped where
  functions name f hf := h.functions name f (congrArg (·.2.2[name]?) hfixtures ▸ hf)
  commands name c hc := h.commands name c (congrArg (·.2.1[name]?) hfixtures ▸ hc)

/-! ### Turns -/

theorem Equipped.beginning (h : m.Equipped) (s : Stmt Address) : (m.beginning s).Equipped := by
  unfold Machine.beginning trace
  split <;> exact ⟨h.functions, h.commands⟩

/-- The next statement fails over nothing but the program. -/
theorem Proper.fair_exec (h : m.Proper) {block : Block} {s : Stmt Address}
    (hcode : m.code = some block) (hs : block.statements[m.pc]? = some s) :
    Fair ((Action.exec s).run (m.beginning s)).1 := by
  have hsound : s.Sound := (h.places.here block hcode).sound (Array.mem_of_getElem? hs)
  refine Action.fair_exec hsound _ ⟨h.toEquipped.beginning s, ?_⟩
  have hbegins : (m.beginning s).code = m.code := congrArg Footing.code (m.ground_beginning s).1
  rw [hbegins, hcode]
  rfl

theorem Proper.ordinary_voice (h : m.Proper) : ∀ event ∈ m.voice, event.Ordinary := by
  intro event hevent
  rcases mem_voice hevent with hcalm | ⟨block, s, e, hcode, hs, hexec, rfl⟩
  · exact Event.ordinary_of_isCalm hcalm
  · exact ((h.fair_exec hcode hs e hexec).locatedAt s.pos).withSource block.source

theorem Proper.turn (h : m.Proper) : m.turn.Proper where
  stands := m.footing_turn.1.stands
  names := m.footing_turn.2 h.names
  toEquipped := h.toEquipped.of_fixtures (moves_turn.fixtures m)
  places := m.footing_turn.1.proper h.places
  pending := by
    rw [m.turn_told.1]
    exact Event.forall_mem_foldl_hear (fun _ => trivial) h.ordinary_voice h.pending

/-! ### Calls of the host -/

theorem ordinary_breakError (block : Block) (pc : Address) : (breakError block pc).Ordinary := by
  unfold breakError
  dsimp only
  split
  · apply Error.Ordinary.withSource
    apply Error.Ordinary.locatedAt
    exact Error.ordinary_of_code nofun nofun
  · exact Error.ordinary_of_code nofun nofun

theorem ordinary_ofHost {e : Error} (h : e.OfHost) : e.Ordinary := by
  rcases h with ⟨m, source, parent, he⟩ | ⟨block, pc, rfl⟩
  · exact Action.fair_compile m source parent e he
  · exact ordinary_breakError block pc

/-- A machine in good order stays so if the host starts programs at proper places only. -/
theorem kept_proper : Kept Frame.Proper Machine.Proper where
  handled h hm :=
    { stands := h.kept (Footing.kept_stands _).handled hm.stands
      names := h.names.trans hm.names
      toEquipped := hm.toEquipped.of_fixtures h.fixtures
      places := h.kept Footing.Handling.proper hm.places
      pending := by
        rcases h.pending with hsame | ⟨e, he, hmore⟩
        · rw [hsame]
          exact hm.pending
        · rw [hmore]
          refine List.forall_mem_append.mpr ⟨hm.pending, List.forall_mem_singleton.mpr ?_⟩
          exact ordinary_ofHost he }
  turn hm := hm.turn
  told hpending hm :=
    { stands := hm.stands
      names := hm.names
      toEquipped := ⟨hm.functions, hm.commands⟩
      places := hm.places
      pending := (List.forall_mem_cons.mp (hpending ▸ hm.pending)).2 }

theorem ordinary_statusEvent (m : Machine) : m.statusEvent.Ordinary := by
  unfold statusEvent
  split <;> trivial

theorem Proper.ordinary_tell (h : m.Proper) : m.tell.1.Ordinary := by
  unfold Machine.tell
  split
  · rename_i event rest hpending
    exact h.pending event (hpending ▸ List.mem_cons_self)
  · exact m.ordinary_statusEvent

theorem Proper.ordinary_execute (h : m.Proper) (clock : Clock) : (m.execute clock).1.Ordinary := by
  cases hpending : m.pending with
  | nil =>
    have hclocked : ({ m with clock := clock } : Machine).Proper := by
      refine kept_proper.handled ?_ h
      exact ⟨.inl rfl, rfl, rfl, .inl rfl⟩
    rw [execute_of_nil hpending]
    exact (kept_proper.quantum (kept_proper.handled (handled_wake _) hclocked)).ordinary_tell
  | cons event rest =>
    rw [execute_of_cons hpending]
    exact h.pending event (hpending ▸ List.mem_cons_self)

theorem proper_of_load {source : String} {block : Block} (h : (m.load source).1 = .ok block) :
    Frame.Proper ⟨block, 0⟩ := by
  have hnone : ∀ frame, (none : Option Frame) = some frame → frame.Proper := nofun
  rw [load_eq] at h
  rcases compile_cases _ _ _ with ⟨e, hfails⟩ | ⟨block', program, data, hcompile, hreads⟩
  · rw [hfails] at h
    cases h
  · rw [hreads] at h
    cases h
    exact Program.proper_of_compile hnone hcompile

theorem fair_load (m : Machine) (source : String) : Fair (m.load source).1 := by
  rw [load_eq]
  exact Action.fair_compile _ _ none

/-! ### New machines -/

theorem Equipped.defineFunctions {fs : List (String × Function)} (hfs : ∀ f ∈ fs, f.2.Fair)
    (h : m.Equipped) : (fs.foldl (fun m f => m.defineFunction f.1 f.2) m).Equipped := by
  induction fs generalizing m with
  | nil => exact h
  | cons f fs ih =>
    obtain ⟨hf, hfs⟩ := List.forall_mem_cons.mp hfs
    refine ih hfs ⟨?_, h.commands⟩
    intro name g hg
    change (m.functions.insert (Text.fold f.1) f.2)[name]? = some g at hg
    rw [Std.TreeMap.getElem?_insert] at hg
    split at hg
    · cases hg
      exact hf
    · exact h.functions name g hg

theorem Equipped.defineCommands {cs : List (String × Command)}
    (hcs : ∀ c ∈ cs, ∃ b, c.2.action = .builtin b) (h : m.Equipped) :
    (cs.foldl (fun m c => m.defineCommand c.1 c.2) m).Equipped := by
  induction cs generalizing m with
  | nil => exact h
  | cons c cs ih =>
    obtain ⟨hc, hcs⟩ := List.forall_mem_cons.mp hcs
    refine ih hcs ⟨h.functions, ?_⟩
    intro name d hd
    change (m.commands.insert (Text.fold c.1) c.2)[name]? = some d at hd
    rw [Std.TreeMap.getElem?_insert] at hd
    split at hd
    · cases hd
      exact hc
    · exact h.commands name d hd

theorem builtins_builtin : ∀ c ∈ Command.builtins, ∃ b, c.2.action = .builtin b := by
  simp only [Command.builtins, List.forall_mem_cons]
  refine ⟨⟨_, rfl⟩, ⟨_, rfl⟩, ⟨_, rfl⟩, ⟨_, rfl⟩, ⟨_, rfl⟩, ⟨_, rfl⟩, ⟨_, rfl⟩, ⟨_, rfl⟩, ⟨_, rfl⟩,
    ⟨_, rfl⟩, ⟨_, rfl⟩, ⟨_, rfl⟩, ⟨_, rfl⟩, ⟨_, rfl⟩, ⟨_, rfl⟩, ⟨_, rfl⟩, ⟨_, rfl⟩, ⟨_, rfl⟩,
    ⟨_, rfl⟩, nofun⟩

theorem proper_new (config : Config) (random : Random) : (new config random).Proper where
  toAnchored := anchored_of_stopped rfl rfl
  toEquipped := by
    unfold new
    apply Equipped.defineFunctions Function.builtins_fair
    apply Equipped.defineCommands builtins_builtin
    constructor
    · intro name f hf
      rw [Std.TreeMap.getElem?_emptyc] at hf
      cases hf
    · intro name c hc
      rw [Std.TreeMap.getElem?_emptyc] at hc
      cases hc
  places := ⟨nofun, fun _ hframe => absurd hframe (Array.not_mem_empty _), nofun,
    Program.proper_of_empty⟩
  pending := List.forall_mem_nil _

end Machine

/-! ### Sessions -/

/-- What holds of a snapshot of a machine in good order. -/
structure Snapshot.Proper (snap : Snapshot) : Prop where
  places : snap.footing.Proper
  stands : snap.status ≠ .stopped → snap.code.isSome

/-- Blocks that a host runs come from reading a source, and start inside or right behind their end. -/
def HostOp.Orderly : HostOp → Prop
  | .run block addr => ∃ (m : Machine) (source : String), (m.load source).1 = .ok block ∧
      addr ≤ block.statements.size
  | _ => True

theorem HostOp.Orderly.starts {op : HostOp} (hop : op.Orderly) (block : Block) (addr : Address)
    (hrun : op = .run block addr) : Frame.Proper ⟨block, addr⟩ := by
  subst hrun
  obtain ⟨m, source, hload, hle⟩ := hop
  exact (Machine.proper_of_load hload).move hle

namespace Session

/-- A session with a new machine and its built-in commands and functions, and the snapshots that the
host took. -/
inductive Orderly : Session → List Snapshot → Prop where
  | new (config : Config) (random : Random) : Orderly ⟨Machine.new config random, []⟩ []
  | serve {s : Session} {kept : List Snapshot} (h : Orderly s kept) (clock : Clock) {op : HostOp}
    (hop : op.Orderly) : Orderly (s.serve clock op).2 kept
  | snapshot {s : Session} {kept : List Snapshot} (h : Orderly s kept) :
    Orderly { s with machine := s.machine.snapshot.2 } (s.machine.snapshot.1 :: kept)
  | restore {s : Session} {kept : List Snapshot} (h : Orderly s kept) {snap : Snapshot}
    (hsnap : snap ∈ kept) : Orderly { s with machine := s.machine.restore snap } kept

variable {s : Session} {kept : List Snapshot}

theorem Orderly.proper (h : s.Orderly kept) :
    s.machine.Proper ∧ ∀ snap ∈ kept, snap.Proper := by
  induction h with
  | new config random => exact ⟨Machine.proper_new config random, List.forall_mem_nil _⟩
  | serve _ clock hop ih => exact ⟨serve_keeps Machine.kept_proper ih.1 clock (HostOp.Orderly.starts hop), ih.2⟩
  | snapshot _ ih =>
    refine ⟨?_, List.forall_mem_cons.mpr ⟨⟨ih.1.places, ih.1.stands⟩, ih.2⟩⟩
    refine Machine.kept_proper.handled ?_ ih.1
    exact ⟨.inl rfl, rfl, rfl, .inl rfl⟩
  | restore _ hsnap ih =>
    obtain ⟨hplaces, hstands⟩ := ih.2 _ hsnap
    refine ⟨⟨⟨hstands, ih.1.names⟩, ⟨ih.1.functions, ih.1.commands⟩, hplaces, ?_⟩, ih.2⟩
    exact List.forall_mem_nil _

/-- A machine between two statements: between two calls of the host or in the middle of the next
one. -/
inductive Stands (s : Session) : Machine → Prop where
  | between : Stands s s.machine
  | amid (clock : Clock) (k : Nat) :
    Stands s
      (Machine.turn^[k] { ({ s.machine with clock := clock } : Machine).wake with outputs := 0 })

theorem Stands.proper {m : Machine} (hm : s.Stands m) (h : s.machine.Proper) : m.Proper := by
  cases hm with
  | between => exact h
  | amid clock k => exact Machine.kept_proper.amid h clock k

/-- Sessions keep their machine in good order. Unless it is stopped it has a program; where it stands,
where calls return to and where an interrupted program goes on are places in programs that were read.
Every label names a block that the table holds and a place in it. Between two statements plain names
are looked up. So no statement and no reading of a source fails over the interpreter, and no event
tells of such a failure. -/
theorem machine_well_formed (h : s.Orderly kept) {m : Machine} (hm : s.Stands m) :
    (m.status ≠ .stopped → m.code.isSome) ∧
    (∀ block, m.code = some block → Frame.Proper ⟨block, m.pc⟩) ∧
    (∀ frame ∈ m.returns.items, frame.Proper) ∧
    (∀ frame status, m.resume = some (frame, status) → frame.Proper) ∧
    (∀ (name : String) (id : Nat) (addr : Address), m.program.labels[name]? = some (id, addr) →
      ∃ block, m.program.blocks[id]? = some block ∧ block.id = id ∧ Frame.Proper ⟨block, addr⟩) ∧
    m.literalNames = false ∧
    (∀ pos name, (Action.eval (.var pos name)).run m =
      (match m.scope.fetch name with
        | some v => .ok v
        | none => .error ((Error.unknownIdentifier name).locatedAt pos), m)) ∧
    (∀ st e n, m.upcoming? = some st → (Action.exec st).run (m.beginning st) = (.error e, n) →
      e.Ordinary) ∧
    (∀ clock e, (m.execute clock).1 = .error e → e.Ordinary) ∧
    ∀ source e, (m.load source).1 = .error e → e.Ordinary := by
  have hproper := hm.proper h.proper.1
  refine ⟨hproper.stands, hproper.places.here, hproper.places.returns, hproper.places.resume, ?_,
    hproper.names, fun pos name => Action.run_eval_var pos name hproper.names, ?_, ?_,
    fun source => m.fair_load source⟩
  · intro name id addr hlabel
    obtain ⟨block, hheld, hid, hframe⟩ := hproper.places.program.tight.label?_of_named hlabel
    exact ⟨block, hheld, hid, hproper.places.program.labels name _ hframe⟩
  · intro st e n hst hexec
    obtain ⟨block, hcode, hs⟩ := Option.bind_eq_some_iff.mp hst
    have hfair := hproper.fair_exec hcode hs
    rw [hexec] at hfair
    exact hfair e rfl
  · intro clock e he
    have hevent := hproper.ordinary_execute clock
    rw [he] at hevent
    exact hevent

/-- A subroutine was interrupted while it waited for input, and a line was entered on top of it. -/
def paused : Session :=
  let loaded := (serve ⟨Machine.new {} (.ofSeed 7), []⟩ {}
    (.load "gosub ask\nend\nask: input \"n\", n\nreturn")).2
  let waiting := ((loaded.serve {} (.enter "run")).2.serve {} .execute).2
  let interrupted := ((waiting.serve {} .interrupt).2.serve {} .execute).2
  (interrupted.serve {} (.enter "print n")).2

theorem orderly_paused : paused.Orderly [] := by
  unfold paused
  iterate 6 refine .serve ?_ {} trivial
  exact .new {} (.ofSeed 7)

/-- The line stands on top of the subroutine, which has a return to make. -/
theorem machine_well_formed_paused :
    paused.Orderly [] ∧ paused.machine.status = .running ∧
      (∃ block parent, paused.machine.code = some block ∧ block.parent = some parent ∧
        parent.Proper) ∧
      (∃ frame ∈ paused.machine.returns.items, frame.Proper) ∧
      (∃ frame status, paused.machine.resume = some (frame, status) ∧ frame.Proper) ∧
      (∃ id addr block, paused.machine.program.labels["ask"]? = some (id, addr) ∧
        paused.machine.program.blocks[id]? = some block ∧ Frame.Proper ⟨block, addr⟩) ∧
      paused.machine.literalNames = false := by
  have hstands : let m := paused.machine
      m.status = .running ∧ (m.code.bind (·.parent)).isSome ∧ m.returns.items.size = 1 ∧
      m.resume.isSome ∧ m.program.labels["ask"]?.isSome := by
    decide +kernel
  obtain ⟨-, hhere, hreturns, hresume, hlabels, hnames, -⟩ :=
    machine_well_formed orderly_paused .between
  refine ⟨orderly_paused, hstands.1, ?_, ?_, ?_, ?_, hnames⟩
  · obtain ⟨parent, hparent⟩ := Option.isSome_iff_exists.mp hstands.2.1
    obtain ⟨block, hcode, hparent⟩ := Option.bind_eq_some_iff.mp hparent
    exact ⟨block, parent, hcode, hparent, (hhere block hcode).parent hparent⟩
  · have hpos : 0 < paused.machine.returns.items.size := by
      rw [hstands.2.2.1]
      exact Nat.zero_lt_one
    exact ⟨_, Array.getElem_mem hpos, hreturns _ (Array.getElem_mem hpos)⟩
  · obtain ⟨⟨frame, status⟩, hframe⟩ := Option.isSome_iff_exists.mp hstands.2.2.2.1
    exact ⟨frame, status, hframe, hresume frame status hframe⟩
  · obtain ⟨⟨id, addr⟩, hlabel⟩ := Option.isSome_iff_exists.mp hstands.2.2.2.2
    obtain ⟨block, hblock, -, hframe⟩ := hlabels "ask" id addr hlabel
    exact ⟨id, addr, block, hlabel, hblock, hframe⟩

end Session

end LineBasic
