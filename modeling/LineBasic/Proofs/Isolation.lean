import LineBasic.Proofs.Calls
import LineBasic.Proofs.Polling

/-!
# Runs are isolated

A program that is loaded, or started by `run`, finds nothing of what ran before: what a host is told and
what it fetches depend on the setting alone, that is on the configuration, the constants, the tables of
commands and functions, tracing and the random source. Only the numbers of blocks and the places of
containers can differ.

A program that is loaded starts with a call of its own. One that is started by `run` starts in the
middle of a call, whose budgets have been used up to a point; until it halts, it is cut at other places.
-/

namespace LineBasic

set_option autoImplicit false

/-! ### Machines that are similar -/

namespace Machine

namespace Twins

variable {L : Likeness} {m m' : Machine} (h : m.Twins L m')
include h

theorem quiet : m.quiet.Twins L m'.quiet :=
  h.update (f := Machine.quiet) (fun _ _ => rfl) rfl

theorem uncut (ht : L.timely) (i : Nat) : (Machine.uncut m' i).told = (Machine.uncut m i).told ∧
    (Machine.uncut m' i).halted = (Machine.uncut m i).halted ∧
    (Machine.uncut m i).machine.Twins L (Machine.uncut m' i).machine ∧
    m.heap.Grows (Machine.uncut m i).machine.heap := by
  induction i with
  | zero => exact ⟨rfl, rfl, h.quiet, .refl _⟩
  | succ i ih =>
    obtain ⟨htold, hhalted, hsimilar, hgrows⟩ := ih
    have hheap : (Machine.uncut m i).machine.wake.heap = (Machine.uncut m i).machine.heap :=
      wake_keeps (·.heap) (fun _ _ => rfl) _
    have hawake := hsimilar.wake fun _ => ht
    obtain ⟨hturn, hgrows'⟩ := hawake.turn fun _ _ _ => ht
    rw [hheap] at hgrows'
    rw [Machine.uncut, Machine.uncut]
    cases hd : (Machine.uncut m i).halted with
    | true =>
      rw [Polled.advance_of_halted hd, Polled.advance_of_halted (hhalted.trans hd)]
      exact ⟨htold, hhalted.trans rfl, hsimilar, hgrows⟩
    | false =>
      by_cases hs : (Machine.uncut m i).machine.wake.status = .running
      · rw [Polled.advance_of_running hd hs,
          Polled.advance_of_running (hhalted.trans hd) (hawake.status_eq.trans hs),
          hturn.pending_eq, htold]
        exact ⟨rfl, rfl, hturn.quiet, hgrows.trans hgrows'⟩
      · rw [Polled.advance_of_not_running hd hs,
          Polled.advance_of_not_running (hhalted.trans hd) (hawake.status_eq ▸ hs),
          hawake.statusEvent_eq fun _ => ht, htold]
        refine ⟨rfl, rfl, hawake, ?_⟩
        rw [hheap]
        exact hgrows

end Twins

/-- The same machine but for the numbers of blocks and the places of containers. -/
abbrev Similar (ρ : Renaming) (base : Heap) (m m' : Machine) : Prop :=
  m.Twins ⟨.free, ρ, base, True⟩ m'

end Machine

theorem Keeper.Similar.of_rested {ρ : Renaming} {base : Heap} {m m' : Machine}
    (h : m.rested.Similar ρ base m'.rested) {held held' : List Value}
    (hheld : List.Forall₂ (Value.Rel (ρ.below m.heap)) held held') :
    Keeper.Similar ρ base ⟨⟨m, held⟩, []⟩ ⟨⟨m', held'⟩, []⟩ :=
  ⟨⟨h.idle, hheld⟩, .nil⟩

/-! ### The setting of a run -/

/-- Containers that are paired already, and the new containers of two heaps in order. -/
def Renaming.onward (σ : Renaming) {h h' : Heap} (hrel : Heap.Rel σ h h') : Renaming where
  rel k r s := σ.rel k r s ∨ ∃ i, r = h.count k + i ∧ s = h'.count k + i
  one_to_one := by
    intro k (r : Nat) (s : Nat) (r' : Nat) (s' : Nat) hrs hrs'
    change r = r' ↔ s = s'
    rcases hrs with hrs | ⟨i, rfl, rfl⟩
    · have hlive := hrel.live hrs
      rcases hrs' with hrs' | ⟨j, rfl, rfl⟩
      · exact σ.one_to_one hrs hrs'
      · change r < h.count k ∧ s < h'.count k at hlive
        omega
    · rcases hrs' with hrs' | ⟨j, rfl, rfl⟩
      · have hlive := hrel.live hrs'
        change r' < h.count k ∧ s' < h'.count k at hlive
        omega
      · omega

section Onward

variable {σ : Renaming} {h h' : Heap} (hrel : Heap.Rel σ h h')

theorem Renaming.le_onward : σ.Le ((σ.onward hrel).below h) :=
  fun _ _ _ hr => ⟨.inl hr, (hrel.live hr).1⟩

theorem Heap.Rel.twins_onward : Heap.Twins (σ.onward hrel) h' h h' := by
  have hle := Renaming.le_onward hrel
  -- Pairs of new containers do not count yet.
  have hold {k : Kind} {r s : Ref} (hr : ((σ.onward hrel).below h).rel k r s) : σ.rel k r s := by
    obtain ⟨hr | ⟨i, rfl, -⟩, hlt⟩ := hr
    · exact hr
    · exact absurd hlt (Nat.not_lt_of_le (Nat.le_add_right _ _))
  refine ⟨⟨fun hr => hrel.live (hold hr), fun hr => ?_, fun hr => ?_⟩, fun k i => .inr ⟨i, rfl, rfl⟩,
    .refl h', fun _ _ => rfl, fun _ _ => rfl⟩
  · exact (hrel.grid (hold hr)).mono hle
  · exact (hrel.dict (hold hr)).mono hle

theorem Heap.Rel.extend_right (hrel : Heap.Rel σ h h') {h'' : Heap} {added : Kind → Nat}
    (hext : h'.Extends added h'') : Heap.Rel σ h h'' := by
  refine ⟨fun {k _ _} hr => ⟨(hrel.live hr).1, Nat.lt_of_lt_of_le (hrel.live hr).2 (hext.grows k)⟩,
    fun hr => ?_, fun hr => ?_⟩
  · rw [hext.grid _ (hrel.live hr).2]
    exact hrel.grid hr
  · rw [hext.dict _ (hrel.live hr).2]
    exact hrel.dict hr

end Onward

namespace Machine

/-- Machines with the same configuration, commands, functions, tracing and random source, and with the
same constants up to the places of containers. -/
structure SameSetting (σ : Renaming) (m m' : Machine) : Prop where
  fixtures : m'.fixtures = m.fixtures
  tracing : m'.tracing = m.tracing
  random : m'.random = m.random
  heap : Heap.Rel σ m.heap m'.heap
  constants : Table.Rel (Value.Rel σ) m.scope.constants m'.scope.constants

/-- What a program finds, apart from the random source and the clock. -/
def setting (m : Machine) : (Config × Std.TreeMap String Command × Std.TreeMap String Function) ×
    Bool × Heap × Std.TreeMap String Value × Listing :=
  (m.fixtures, m.tracing, m.heap, m.scope.constants, m.listing)

theorem listing_of_setting {m m' : Machine} (h : m'.setting = m.setting) :
    m'.listing = m.listing :=
  congrArg (·.2.2.2.2) h

/-- A machine that has nothing to run, nor anything of what it ran. -/
def blank (m : Machine) : Machine :=
  { Action.withoutProgram m with code := none, pc := 0, status := .stopped }

/-- What `run` makes of a machine whose listing reads as some code: nothing of what ran before is
left. -/
def started (m : Machine) (code : Code) (label : Option String) : Machine :=
  let block : Block := ⟨m.program.nextId, code.statements, m.listing.source, none⟩
  let program := ({ nextId := m.program.nextId + 1 } : Program).addLabels block code.labels
  let place : Frame := (label.bind program.label?).getD ⟨block, 0⟩
  { Action.withoutProgram m with
    data := ({} : DataQueue).pushAll (code.data.map Constant.value)
    program := program, code := some place.block, pc := place.addr, status := .running }

theorem restart_of_parse (m : Machine) {code : Code} (h : parse m.listing.source = .ok code)
    (label : Option String) :
    (Action.restart label).run m = (.ok (), m.started code label) := by
  have hcompile : m.compileListing = (.ok ⟨m.program.nextId, code.statements, m.listing.source, none⟩,
      { Action.withoutProgram m with
        data := ({} : DataQueue).pushAll (code.data.map Constant.value)
        program := ({ nextId := m.program.nextId + 1 } : Program).addLabels
          ⟨m.program.nextId, code.statements, m.listing.source, none⟩ code.labels }) := by
    unfold compileListing compile Program.compile
    dsimp only
    rw [h]
    rfl
  rw [Action.restart, Action.run_bind, Action.run_mk, hcompile]
  refine congrArg (Prod.mk _) (?_ : (_ : Machine) = _)
  dsimp only [started]
  cases label.bind (({ nextId := m.program.nextId + 1 } : Program).addLabels
      ⟨m.program.nextId, code.statements, m.listing.source, none⟩ code.labels).label? with
  | none => rfl
  | some frame => rfl

theorem restart_of_error (m : Machine) {e : Error} (h : parse m.listing.source = .error e)
    (label : Option String) : ((Action.restart label).run m).1 = .error e := by
  have hcompile : m.compileListing.1 = .error e := by
    unfold compileListing compile Program.compile
    dsimp only
    rw [h]
    rfl
  rw [Action.restart, Action.run_bind, Action.run_mk]
  revert hcompile
  rcases m.compileListing with ⟨r, n⟩
  rintro rfl
  rfl

theorem SameSetting.similar {σ : Renaming} {m m' : Machine} (h : SameSetting σ m m')
    (huniform : m.Uniform) (hsized : m.returns.Sized) (hsized' : m'.returns.Sized)
    (hlisting : m'.listing = m.listing) (hpending : m'.pending = m.pending)
    (houtputs : m'.outputs = m.outputs) (hclock : m'.clock = m.clock)
    (hnames : m'.literalNames = m.literalNames) :
    m.blank.Similar (σ.onward h.heap) m'.heap m'.blank := by
  have hconfig : m'.config = m.config := congrArg (·.1) h.fixtures
  have hcommands : m'.commands = m.commands := congrArg (·.2.1) h.fixtures
  have hfunctions : m'.functions = m.functions := congrArg (·.2.2) h.fixtures
  have hle := Renaming.le_onward h.heap
  refine ⟨?_, ⟨⟨.none, ⟨?_, ?_, .nil⟩, .none, .of_empty⟩, fun _ => h.random.symm, fun _ => hclock.symm,
    ⟨.empty, ?_⟩, .empty, h.heap.twins_onward⟩, huniform.functions, huniform.commands⟩
  · change m'.blank = { m'.blank with
      listing := m.listing, tracing := m.tracing, config := m.config, outputs := m.outputs
      pending := m.pending, commands := m.commands, functions := m.functions
      literalNames := m.literalNames }
    rw [← hlisting, ← h.tracing, ← hconfig, ← houtputs, ← hpending, ← hcommands, ← hfunctions,
      ← hnames]
    rfl
  · exact hsized'.limit_eq.trans hsized.limit_eq.symm
  · exact hsized'.overflow_eq.trans hsized.overflow_eq.symm
  · exact h.constants.mono fun _ _ => .mono hle

theorem SameSetting.started {σ : Renaming} {m m' : Machine} (h : SameSetting σ m m')
    (huniform : m.Uniform) (hsized : m.returns.Sized) (hsized' : m'.returns.Sized)
    (hlisting : m'.listing = m.listing) (hpending : m'.pending = m.pending)
    (houtputs : m'.outputs = m.outputs) (hclock : m'.clock = m.clock)
    (hnames : m'.literalNames = m.literalNames) {code : Code}
    (hcode : parse m.listing.source = .ok code) (label : Option String) :
    (m.started code label).Similar (σ.onward h.heap) m'.heap (m'.started code label) := by
  have hblank := h.similar huniform hsized hsized' hlisting hpending houtputs hclock hnames
  have hcode' : parse m'.blank.listing.source = .ok code := by
    change parse m'.listing.source = .ok code
    rw [hlisting, hcode]
  obtain ⟨-, hrun, -⟩ := Action.tracks_restart label _ _ hblank fun _ _ _ hr => hr
  rw [restart_of_parse m.blank hcode, restart_of_parse m'.blank hcode'] at hrun
  exact hrun

end Machine

/-! ### Loading and running -/

namespace Session

theorem Reachable.uniform {s : Session} {kept : List Snapshot} (h : Reachable .uniform s kept) :
    s.machine.Uniform :=
  ⟨h.sound.1.machine.uniform.functions, h.sound.1.machine.uniform.commands⟩

theorem Occurs.uniform {m : Machine} (h : Occurs .uniform m) : m.Uniform := by
  obtain ⟨s, kept, clock, k, hs, rfl⟩ := h
  apply hs.uniform.of_fixtures
  have hturns (n : Machine) : (Machine.turn^[k] n).fixtures = n.fixtures := by
    induction k generalizing n with
    | zero => rfl
    | succ k ih =>
      rw [Function.iterate_succ_apply, ih]
      exact Machine.moves_turn.fixtures n
  rw [hturns]
  exact Machine.wake_keeps Machine.fixtures (fun _ _ => rfl) { s.machine with clock := clock }

/-- A source cannot be loaded on either machine, for the same reason, or the machines cannot be told
apart once it runs. This is about hosts that go on with nothing from before, or with values that are the
same up to the places of containers; hosts that both have such a value may both use it. -/
def LoadsAlike (σ : Renaming) (m m' : Machine) (source : String) : Prop :=
  (∃ e, (m.load source).1 = .error e ∧ (m'.load source).1 = .error e) ∨
  ∃ block block' ρ, (m.load source).1 = .ok block ∧ (m'.load source).1 = .ok block' ∧
    block.Renumbered block' ∧ σ.Le ρ ∧
    ∀ held held', List.Forall₂ (Value.Rel σ) held held' →
      Keeper.Indistinct ρ ⟨⟨(m.load source).2.run block 0, held⟩, []⟩
        ⟨⟨(m'.load source).2.run block' 0, held'⟩, []⟩

/-- Nothing that a loaded program does depends on what ran before. -/
theorem load_isolated {σ : Renaming} {s s' : Session} {kept kept' : List Snapshot}
    (hs : Reachable .uniform s kept) (hs' : Reachable .uniform s' kept')
    (hset : s.machine.SameSetting σ s'.machine) (hidle : s.machine.pending = [])
    (hidle' : s'.machine.pending = []) (source : String) :
    LoadsAlike σ s.machine s'.machine source := by
  cases hparse : parse (Listing.ofSource source).source with
  | error e =>
    have hload (m : Machine) : (m.load source).1 = .error e := by
      unfold Machine.load Machine.compileListing Machine.compile Program.compile
      dsimp only
      rw [hparse]
      rfl
    exact .inl ⟨e, hload _, hload _⟩
  | ok code =>
    right
    let ready (m : Machine) : Machine := ({ m with listing := .ofSource source } : Machine).rested
    have hload := s.machine.load_of_parse hparse
    have hload' := s'.machine.load_of_parse hparse
    have hset' : (ready s.machine).SameSetting σ (ready s'.machine) :=
      ⟨hset.fixtures, hset.tracing, hset.random, hset.heap, hset.constants⟩
    have hbegun := hset'.started (hs.uniform.of_fixtures rfl) hs.sized hs'.sized rfl
      (hidle'.trans hidle.symm) rfl rfl
      (hs'.names.trans hs.names.symm) hparse none
    refine ⟨_, _, σ.onward hset.heap, by rw [hload], by rw [hload'], .root _ _ _ _,
      fun _ _ _ hr => .inl hr, fun held held' hheld => ?_⟩
    apply Keeper.Similar.indistinct
    apply Keeper.Similar.of_rested
    · rw [hload, hload']
      exact hbegun
    · rw [hload]
      exact hheld.imp fun _ _ => .mono (Renaming.le_onward hset.heap)

end Session

/-! ### Starting the listing in the middle of a call -/

theorem Error.locatedAt_locatedAt (e : Error) (p q : Pos) :
    (e.locatedAt p).locatedAt q = e.locatedAt p := by
  unfold locatedAt
  cases he : e.pos with
  | none => rfl
  | some pos =>
    dsimp only
    rw [he]

/-- The label at which a statement starts the listing, if it is that command. -/
def Stmt.restartLabel? (m : Machine) : Stmt Address → Option (Option String)
  | .command _ name args literal =>
    match m.commands[name]?.map Command.action,
      ((Action.naming literal (Action.evalArgs args)).run m).1 with
    | some (.builtin .run), .ok values => (Command.startLabel m.heap values).toOption
    | _, _ => none
  | _ => none

namespace Machine

/-- The label at which the next turn starts the listing, if it does. -/
def restartLabel? (m : Machine) : Option (Option String) :=
  m.upcoming?.bind fun s => (s.enacted (m.beginning s)).bind fun r => r.1.restartLabel? r.2

theorem exec_of_restartLabel {s : Stmt Address} {m : Machine} {label : Option String}
    (h : s.restartLabel? m = some label) : ∃ pos random,
      (Action.exec s).run m = (Action.located pos (Action.restart label)).run
        { m with random := random, literalNames := false } := by
  cases s with
  | command pos name args literal =>
    rw [Stmt.restartLabel?] at h
    split at h
    · rename_i values haction hvalues
      obtain ⟨c, hc, hrun⟩ := Option.map_eq_some_iff.mp haction
      have hlabel : Command.startLabel m.heap values = .ok label := by
        cases hstart : Command.startLabel m.heap values with
        | ok found =>
          rw [hstart] at h
          cases h
          rfl
        | error e =>
          rw [hstart] at h
          cases h
      -- the arguments are evaluated by drawing random numbers at most
      obtain ⟨random, hargs⟩ : ∃ random, (Action.naming literal (Action.evalArgs args)).run m =
          (.ok values, { m with random := random, literalNames := false }) := by
        rw [Action.evalArgs_eq] at hvalues ⊢
        exact ⟨_, Prod.ext hvalues rfl⟩
      refine ⟨pos, random, ?_⟩
      rw [Action.exec, Action.command, Action.run_bind, Action.run_get]
      dsimp only
      rw [hc]
      dsimp only
      rw [Action.run_bind, hargs, hrun]
      dsimp only
      rw [Action.run_located, Action.run_located]
      have hperform : (Action.perform (.builtin .run) values).run
          { m with random := random, literalNames := false } = (Action.restart label).run
            { m with random := random, literalNames := false } := by
        change (Action.builtin values .run).run _ = _
        rw [Action.builtin, Action.run_bind, Action.run_get]
        dsimp only
        rw [hlabel, Action.run_bind]
        rfl
      rw [hperform]
    · cases h
  | _ => cases h

/-- A machine that is in the middle of a call, with only texts waiting and so many statements left
after the next one, which starts the listing. -/
structure AtRun (m : Machine) (cycles : Nat) (label : Option String) : Prop where
  occurs : Session.Occurs .uniform m
  mayStep : m.mayStep
  texts : ∀ e ∈ m.pending, e.isPrint
  left : cycles < m.config.maxCycles
  starts : m.restartLabel? = some label

/-- A machine that has just stopped with an error, which was given a place if it had none. -/
def StopsWith (m : Machine) (e : Error) : Prop :=
  m.status = .stopped ∧ ∃ pos source,
    m.pending.getLast? = some (.error ((e.locatedAt pos).withSource source))

theorem setting_beginning (m : Machine) (s : Stmt Address) :
    (m.beginning s).setting = m.setting := by
  unfold beginning trace
  split <;> rfl

theorem turn_of_restartLabel {m : Machine} {label : Option String}
    (h : m.restartLabel? = some label) : ∃ s random,
      (∀ e, parse m.listing.source = .error e → m.turn.StopsWith e) ∧
      ∀ code, parse m.listing.source = .ok code →
        m.turn = ({ m.beginning s with random := random, literalNames := false } : Machine).started
          code label := by
  obtain ⟨s, hs, hstarts⟩ := Option.bind_eq_some_iff.mp h
  obtain ⟨⟨t, n⟩, henacted, hlabel⟩ := Option.bind_eq_some_iff.mp hstarts
  obtain ⟨drawn, hexec⟩ := Action.exec_enacted s (m.beginning s)
  rw [henacted] at hexec
  obtain ⟨rfl, hrun⟩ := hexec
  obtain ⟨pos, random, hcommand⟩ := exec_of_restartLabel hlabel
  obtain ⟨block, hcode, hpc⟩ := Option.bind_eq_some_iff.mp hs
  have hlisting : (m.beginning s).listing = m.listing :=
    listing_of_setting (setting_beginning m s)
  refine ⟨s, random, fun e he => ?_, fun code hparse => ?_⟩
  · rw [turn_of_beginning hcode hpc, hrun, hcommand, Action.run_located]
    have herror := restart_of_error
      { m.beginning s with random := random, literalNames := false } (hlisting ▸ he) label
    revert herror
    dsimp only
    generalize (Action.restart label).run _ = r
    rcases r with ⟨r, n⟩
    rintro rfl
    dsimp only [Except.mapError]
    refine ⟨?_, pos, block.source, ?_⟩
    · unfold abort
      dsimp only
      split <;> rfl
    · have hpending : (n.abort (e.locatedAt pos) block s.pos).pending =
          n.pending ++ [.error (((e.locatedAt pos).locatedAt s.pos).withSource block.source)] := by
        unfold abort
        dsimp only
        split <;> rfl
      rw [hpending, List.getLast?_concat, Error.locatedAt_locatedAt]
  · rw [turn_of_beginning hcode hpc, hrun, hcommand, Action.run_located]
    have hstarted := restart_of_parse
      { m.beginning s with random := random, literalNames := false } (hlisting ▸ hparse) label
    dsimp only at hstarted ⊢
    rw [hstarted]
    rfl

/-- The turn that starts the listing stops with the listing's error, or it leaves nothing of what ran
before. -/
theorem AtRun.begins {m : Machine} {cycles : Nat} {label : Option String}
    (h : m.AtRun cycles label) :
    (∃ e, parse m.listing.source = .error e ∧ m.turn.StopsWith e) ∨
    ∃ code n, parse m.listing.source = .ok code ∧ m.turn = started n code label ∧
      n.setting = m.setting ∧ n.returns.Sized ∧ n.literalNames = false ∧ n.clock = m.clock ∧
      ∀ e ∈ n.pending, e.isPrint := by
  obtain ⟨s, random, herror, hstarted⟩ := turn_of_restartLabel h.starts
  cases hparse : parse m.listing.source with
  | error e => exact .inl ⟨e, rfl, herror e hparse⟩
  | ok code =>
    have hbeginning : (m.beginning s).clock = m.clock ∧
        ∀ e ∈ (m.beginning s).pending, e.isPrint := by
      unfold beginning trace
      split
      · exact ⟨rfl, Event.isPrint_of_mem_appendText h.texts _⟩
      · exact ⟨rfl, h.texts⟩
    have hreturns : (m.beginning s).returns = m.returns :=
      congrArg Footing.returns (m.ground_beginning s).1
    refine .inr ⟨code, { m.beginning s with random := random, literalNames := false }, rfl,
      hstarted code hparse, setting_beginning m s, ?_, rfl, hbeginning⟩
    change (m.beginning s).returns.Sized
    rw [hreturns]
    exact h.occurs.sized

theorem Hears.mono {R S : Machine → Machine → Prop} (himp : ∀ m m', R m m' → S m m')
    {before before' : List Event} {run run' : Nat → Polled} (h : Hears R before before' run run') :
    Hears S before before' run run' := by
  intro n
  obtain ⟨n', news, more, htold, htold', hhalted⟩ := h n
  refine ⟨n', news, more, htold, htold', fun hd => ?_⟩
  obtain ⟨hd', hmore, hrelated⟩ := hhalted hd
  exact ⟨hd', hmore, himp _ _ hrelated⟩

/-- Similar machines that were told to start are heard alike, wherever the calls cut them. -/
theorem Similar.hears {ρ : Renaming} {base : Heap} {m m' : Machine}
    (h : m.quiet.Similar ρ base m'.quiet) {held held' : List Value}
    (hheld : List.Forall₂ (Value.Rel (ρ.below m.heap)) held held') {cycles cycles' : Nat}
    (htexts : ∀ e ∈ m.pending, e.isPrint) (htexts' : ∀ e ∈ m'.pending, e.isPrint)
    (hcycles : 0 < m.config.maxCycles) (houtputs : 0 < m.config.maxOutputs)
    (hcycles' : 0 < m'.config.maxCycles) (houtputs' : 0 < m'.config.maxOutputs)
    {clocks clocks' : Nat → Clock} (hsteady : ∀ n, m.Steady (clocks n))
    (hsteady' : ∀ n, m'.Steady (clocks' n)) :
    Hears (fun n n' => Keeper.Indistinct ρ ⟨⟨n, held⟩, []⟩ ⟨⟨n', held'⟩, []⟩) m.pending m'.pending
        (polled clocks cycles m) (polled clocks' cycles' m') ∧
      Hears (fun n' n => Keeper.Indistinct ρ ⟨⟨n, held⟩, []⟩ ⟨⟨n', held'⟩, []⟩) m'.pending m.pending
        (polled clocks' cycles' m') (polled clocks cycles m) := by
  have hquiet (n : Machine) (i : Nat) : Machine.uncut n.quiet i = Machine.uncut n i := by
    induction i with
    | zero => rfl
    | succ i ih => rw [Machine.uncut, Machine.uncut, ih]
  have hcourse (i : Nat) := h.uncut trivial i
  simp only [hquiet] at hcourse
  have hindistinct (i : Nat) : Keeper.Similar ρ base ⟨⟨(Machine.uncut m i).machine.rested, held⟩, []⟩
      ⟨⟨(Machine.uncut m' i).machine.rested, held'⟩, []⟩ := by
    obtain ⟨-, -, hsimilar, hgrows⟩ := hcourse i
    apply Keeper.Similar.of_rested
    · exact hsimilar.idle.rested
    · exact hheld.imp fun _ _ => .mono (hgrows.below ρ)
  constructor
  · apply Hears.mono (R := fun n n' => Keeper.Similar ρ base ⟨⟨n.rested, held⟩, []⟩
      ⟨⟨n'.rested, held'⟩, []⟩)
    · intro n n' hn
      exact Keeper.Similar.indistinct hn
    · apply hears_of_uncut (R := fun n n' => Keeper.Similar ρ base ⟨⟨n, held⟩, []⟩ ⟨⟨n', held'⟩, []⟩)
        _ htexts htexts' hcycles houtputs hcycles' houtputs' hsteady hsteady'
      intro i
      exact ⟨(hcourse i).1, (hcourse i).2.1, hindistinct i⟩
  · apply Hears.mono (R := fun n' n => Keeper.Similar ρ base ⟨⟨n.rested, held⟩, []⟩
      ⟨⟨n'.rested, held'⟩, []⟩)
    · intro n' n hn
      exact Keeper.Similar.indistinct hn
    · apply hears_of_uncut (R := fun n' n => Keeper.Similar ρ base ⟨⟨n, held⟩, []⟩ ⟨⟨n', held'⟩, []⟩)
        _ htexts' htexts hcycles' houtputs' hcycles houtputs hsteady' hsteady
      intro i
      exact ⟨(hcourse i).1.symm, (hcourse i).2.1.symm, hindistinct i⟩

end Machine

namespace Session

open Machine

/-- A listing that was to be started on two machines cannot be read, for the same reason, or the
machines cannot be told apart: not at all if the calls in which it was started go on alike, and
otherwise not by what hosts hear up to where it halts, and not at all from there. -/
def RunsAlike (σ : Renaming) (held held' : List Value) (cycles cycles' : Nat) (m m' : Machine) :
    Prop :=
  (∃ e, m.StopsWith e ∧ m'.StopsWith e) ∨
  ∃ ρ, σ.Le ρ ∧
    (m'.pending = m.pending → m'.outputs = m.outputs → cycles' = cycles →
      (runFor cycles' m').tell.1 = (runFor cycles m).tell.1 ∧
      Keeper.Indistinct ρ ⟨⟨(runFor cycles m).tell.2, held⟩, []⟩
        ⟨⟨(runFor cycles' m').tell.2, held'⟩, []⟩) ∧
    ∀ clocks clocks' : Nat → Clock, (∀ n, m.Steady (clocks n)) → (∀ n, m'.Steady (clocks' n)) →
      Hears (fun n n' => Keeper.Indistinct ρ ⟨⟨n, held⟩, []⟩ ⟨⟨n', held'⟩, []⟩) m.pending m'.pending
        (polled clocks cycles m) (polled clocks' cycles' m') ∧
      Hears (fun n' n => Keeper.Indistinct ρ ⟨⟨n, held⟩, []⟩ ⟨⟨n', held'⟩, []⟩) m'.pending m.pending
        (polled clocks' cycles' m') (polled clocks cycles m)

/-- Nothing that the listing does depends on what ran before `run`. -/
theorem run_isolated {σ : Renaming} {m m' : Machine} {cycles cycles' : Nat} {label : Option String}
    (h : m.AtRun cycles label) (h' : m'.AtRun cycles' label) (hset : m.turn.SameSetting σ m'.turn)
    (hlisting : m'.listing = m.listing) (hclock : m'.clock = m.clock) {held held' : List Value}
    (hheld : List.Forall₂ (Value.Rel σ) held held') :
    RunsAlike σ held held' cycles cycles' m.turn m'.turn := by
  have hbudgets {m : Machine} {cycles : Nat} (h : m.AtRun cycles label) :
      0 < m.turn.config.maxCycles ∧ 0 < m.turn.config.maxOutputs := by
    have hmay := h.mayStep
    simp only [mayStep, Bool.and_eq_true, decide_eq_true_eq] at hmay
    rw [moves_turn.config]
    exact ⟨Nat.zero_lt_of_lt h.left, Nat.zero_lt_of_lt hmay.1.2⟩
  have hbudget := hbudgets h
  have hbudget' := hbudgets h'
  rcases h.begins with ⟨e, hparse, hstops⟩ | ⟨code, n, hparse, hturn, hkept, hsized, hnames, hat, hprints⟩
  · rcases h'.begins with ⟨e', hparse', hstops'⟩ | ⟨code', n', hparse', -⟩
    · rw [hlisting, hparse] at hparse'
      cases hparse'
      exact .inl ⟨e, hstops, hstops'⟩
    · rw [hlisting, hparse] at hparse'
      cases hparse'
  · rcases h'.begins with ⟨e', hparse', -⟩ |
      ⟨code', n', hparse', hturn', hkept', hsized', hnames', hat', hprints'⟩
    · rw [hlisting, hparse] at hparse'
      cases hparse'
    · rw [hlisting, hparse] at hparse'
      cases hparse'
      right
      rw [hturn] at hset hbudget ⊢
      rw [hturn'] at hset hbudget' ⊢
      have huniform : n.Uniform := h.occurs.uniform.of_fixtures (congrArg Prod.fst hkept)
      have hn : n.listing = m.listing := listing_of_setting hkept
      have hn' : n'.listing = m'.listing := listing_of_setting hkept'
      have hsame : n'.listing = n.listing := by rw [hn, hn', hlisting]
      have htime : n'.clock = n.clock := by rw [hat, hat', hclock]
      have hread : parse n.listing.source = .ok code := by rw [hn, hparse]
      have hle := Renaming.le_onward hset.heap
      refine ⟨σ.onward hset.heap, fun _ _ _ hr => .inl hr, fun hpending houtputs hcycles => ?_,
        fun clocks clocks' hsteady hsteady' => ?_⟩
      · have hset' : n.SameSetting σ n' :=
          ⟨hset.fixtures, hset.tracing, hset.random, hset.heap, hset.constants⟩
        have hbegun := hset'.started huniform hsized hsized' hsame hpending houtputs htime
          (hnames'.trans hnames.symm) hread label
        subst hcycles
        obtain ⟨hrun, hgrows⟩ := hbegun.runFor cycles' fun _ _ _ => trivial
        obtain ⟨hevent, htold, hgrows'⟩ := hrun.tell fun _ _ => trivial
        refine ⟨hevent, ?_⟩
        apply Keeper.Similar.indistinct
        apply Keeper.Similar.of_rested htold.idle.rested
        exact hheld.imp fun _ _ hvw => (hvw.mono hle).mono ((hgrows.trans hgrows').below _)
      · have hset' : n.quiet.SameSetting σ n'.quiet :=
          ⟨hset.fixtures, hset.tracing, hset.random, hset.heap, hset.constants⟩
        have hbegun := hset'.started (huniform.of_fixtures rfl) hsized hsized' hsame rfl rfl htime
          (hnames'.trans hnames.symm) hread label
        have hquiet : (n.started code label).quiet.Similar (σ.onward hset.heap) n'.heap
            (n'.started code label).quiet := hbegun
        exact hquiet.hears (hheld.imp fun _ _ => .mono hle) hprints hprints' hbudget.1 hbudget.2
          hbudget'.1 hbudget'.2 hsteady hsteady'

end Session

/-! ### Lines that start a listing -/

/-- Whether a statement assigns a number that is written out. -/
def Stmt.isNumberAssign : Stmt Address → Bool
  | .assign _ _ (.number ..) => true
  | _ => false

/-- Whether a statement starts the listing at its beginning. -/
def Stmt.isBareRun (commands : Std.TreeMap String Command) : Stmt Address → Bool
  | .command _ name none _ => commands[name]?.any (·.action.isRun)
  | _ => false

namespace Machine

/-- What a program finds, apart from the clock. -/
def supplies (m : Machine) := (m.random, m.setting)

theorem listing_of_supplies {m m' : Machine} (h : m'.supplies = m.supplies) :
    m'.listing = m.listing :=
  listing_of_setting (congrArg Prod.snd h)

theorem supplies_beginning (m : Machine) (s : Stmt Address) :
    (m.beginning s).supplies = m.supplies := by
  unfold beginning trace
  split <;> rfl

theorem supplies_enter {m : Machine} (h : m.status = .stopped) {line : String}
    (hline : (m.listing.placeNumbered? (Text.trim (entry line))).isNone) :
    (m.enter line).supplies = m.supplies := by
  rw [enter_of_not_input (by rw [h]; exact nofun)]
  split
  · rfl
  · split
    · rename_i hplaced
      rw [hplaced] at hline
      cases hline
    · unfold runLine compile
      generalize Program.compile _ _ _ _ = x
      cases x <;> rfl

theorem supplies_turn_assign {m : Machine} (h : m.upcoming?.any Stmt.isNumberAssign) :
    m.turn.supplies = m.supplies := by
  obtain ⟨s, hs, hkind⟩ := (Option.any_eq_true _ _).mp h
  obtain ⟨block, hcode, hpc⟩ := Option.bind_eq_some_iff.mp hs
  obtain ⟨pos, name, pos', x, rfl⟩ : ∃ pos name pos' x, s = .assign pos name (.number pos' x) := by
    revert hkind
    unfold Stmt.isNumberAssign
    split
    · exact fun _ => ⟨_, _, _, _, rfl⟩
    · nofun
  rw [turn_of_beginning hcode hpc]
  exact supplies_beginning m _

theorem supplies_turn_run {m : Machine} (h : m.upcoming?.any (Stmt.isBareRun m.commands))
    (hparse : (parse m.listing.source).isOk) : m.turn.supplies = m.supplies := by
  obtain ⟨s, hs, hkind⟩ := (Option.any_eq_true _ _).mp h
  obtain ⟨block, hcode, hpc⟩ := Option.bind_eq_some_iff.mp hs
  obtain ⟨pos, name, literal, c, rfl, hc, hrun⟩ : ∃ pos name literal c,
      s = .command pos name none literal ∧ m.commands[name]? = some c ∧
        c.action = .builtin .run := by
    revert hkind
    unfold Stmt.isBareRun
    split
    · intro hkind
      obtain ⟨c, hc, hrun⟩ := (Option.any_eq_true _ _).mp hkind
      refine ⟨_, _, _, c, rfl, hc, ?_⟩
      revert hrun
      unfold CommandAction.isRun
      split
      · exact fun _ => ‹_›
      · nofun
    · nofun
  have hbegins := supplies_beginning m (.command pos name none literal)
  have hcommands := (m.ground_beginning (.command pos name none literal)).2.1
  rw [turn_of_beginning hcode hpc, ← hbegins]
  have hlisting : (m.beginning (.command pos name none literal)).listing = m.listing :=
    listing_of_supplies hbegins
  rw [← hcommands] at hc
  rw [← hlisting] at hparse
  generalize m.beginning (.command pos name none literal) = n at hc hparse ⊢
  cases hcode : parse n.listing.source with
  | error e =>
    rw [hcode] at hparse
    cases hparse
  | ok code =>
    have hstarted := restart_of_parse { n with literalNames := false } hcode none
    have hexec : (Action.exec (.command pos name none literal)).run n =
        (.ok (), ({ n with literalNames := false } : Machine).started code none) := by
      rw [Action.exec, Action.command, Action.run_bind, Action.run_get]
      dsimp only
      rw [hc]
      dsimp only
      rw [hrun, Action.run_bind]
      change (Action.located pos (Action.restart none)).run { n with literalNames := false } = _
      rw [Action.run_located, hstarted]
      rfl
    rw [hexec]
    rfl

end Machine

namespace Session

open Machine

/-- A session with a listing that prints, pauses for so many seconds and prints again. -/
def prepared (pause : String) : Session :=
  (serve ⟨Machine.new { maxCycles := 3 } (.ofSeed 7), []⟩ {} (.setListing
    (.ofSource ("10 print \"a\"\n20 sleep " ++ pause ++ "\n30 print \"b\"")))).2

/-- The same with a line that waits to be run. -/
def entered (pause line : String) : Session :=
  ((prepared pause).serve {} (.enter line)).2

/-- The machine of that session after so many statements of the line. -/
def runningLine (pause line : String) (k : Nat) : Machine :=
  Machine.turn^[k]
    { ({ (entered pause line).machine with clock := {} } : Machine).wake with outputs := 0 }

theorem reachable_prepared (pause : String) : Reachable .uniform (prepared pause) [] :=
  .serve (.new _ _) _ _

theorem reachable_entered (pause line : String) : Reachable .uniform (entered pause line) [] :=
  .serve (reachable_prepared pause) _ _

theorem runningLine_succ (pause line : String) (k : Nat) :
    runningLine pause line (k + 1) = (runningLine pause line k).turn :=
  Function.iterate_succ_apply' _ _ _

theorem occurs_runningLine (pause line : String) (k : Nat) :
    Occurs .uniform (runningLine pause line k) :=
  ⟨entered pause line, [], {}, k, reachable_entered pause line, rfl⟩

theorem Reachable.sameSetting {s : Session} {kept : List Snapshot} (h : Reachable .uniform s kept)
    {m m' : Machine} (hm : m.supplies = s.machine.supplies)
    (hm' : m'.supplies = s.machine.supplies) :
    m.SameSetting (Renaming.identity.below s.machine.heap) m' := by
  have hheap : m.heap = s.machine.heap := congrArg (·.2.2.2.1) hm
  have hheap' : m'.heap = s.machine.heap := congrArg (·.2.2.2.1) hm'
  have hconstants : m.scope.constants = s.machine.scope.constants := congrArg (·.2.2.2.2.1) hm
  have hconstants' : m'.scope.constants = s.machine.scope.constants := congrArg (·.2.2.2.2.1) hm'
  have hsame : m'.supplies = m.supplies := hm'.trans hm.symm
  refine ⟨congrArg (·.2.1) hsame, congrArg (·.2.2.1) hsame, congrArg (·.1) hsame, ?_, ?_⟩
  · rw [hheap, hheap']
    exact h.sound.1.machine.heap.rel
  · rw [hconstants, hconstants']
    exact h.sound.1.machine.scope.constants

theorem supplies_runningLine {line : String}
    (hline : ((prepared "0").machine.listing.placeNumbered? (Text.trim (entry line))).isNone) :
    (runningLine "0" line 0).supplies = (prepared "0").machine.supplies := by
  have hstopped : (prepared "0").machine.status = .stopped := by decide +kernel
  have hentered : (entered "0" line).machine = (prepared "0").machine.enter line := rfl
  rw [runningLine, Function.iterate_zero, id_eq, hentered, ← supplies_enter hstopped hline]
  generalize (prepared "0").machine.enter line = m
  exact wake_keeps supplies (fun _ _ => rfl) { m with clock := {} }

theorem atRun_run : (runningLine "0" "run" 0).AtRun 2 none ∧
    (runningLine "0" "run" 0).supplies = (prepared "0").machine.supplies ∧
    (runningLine "0" "run" 0).turn.supplies = (prepared "0").machine.supplies := by
  have hstands : (runningLine "0" "run" 0).mayStep ∧ (runningLine "0" "run" 0).pending = [] ∧
      2 < (runningLine "0" "run" 0).config.maxCycles ∧
      (runningLine "0" "run" 0).restartLabel? = some none ∧
      (runningLine "0" "run" 0).upcoming?.any
        (Stmt.isBareRun (runningLine "0" "run" 0).commands) ∧
      (parse (runningLine "0" "run" 0).listing.source).isOk := by
    decide +kernel
  have hoccurs := occurs_runningLine "0" "run" 0
  have hsupplies : (runningLine "0" "run" 0).supplies = (prepared "0").machine.supplies :=
    supplies_runningLine (by decide +kernel)
  generalize runningLine "0" "run" 0 = m at *
  obtain ⟨hmay, hpending, hleft, hstarts, hbare, hparse⟩ := hstands
  have hat : m.AtRun 2 none := ⟨hoccurs, hmay, by rw [hpending]; exact nofun, hleft, hstarts⟩
  exact ⟨hat, hsupplies, (supplies_turn_run hbare hparse).trans hsupplies⟩

theorem atRun_assigned : (runningLine "0" "x = 1 : run" 1).AtRun 1 none ∧
    (runningLine "0" "x = 1 : run" 1).supplies = (prepared "0").machine.supplies ∧
    (runningLine "0" "x = 1 : run" 1).turn.supplies = (prepared "0").machine.supplies := by
  have hstands : (runningLine "0" "x = 1 : run" 1).mayStep ∧
      (runningLine "0" "x = 1 : run" 1).pending = [] ∧
      1 < (runningLine "0" "x = 1 : run" 1).config.maxCycles ∧
      (runningLine "0" "x = 1 : run" 1).restartLabel? = some none ∧
      (runningLine "0" "x = 1 : run" 1).upcoming?.any
        (Stmt.isBareRun (runningLine "0" "x = 1 : run" 1).commands) ∧
      (parse (runningLine "0" "x = 1 : run" 1).listing.source).isOk := by
    decide +kernel
  have hassign : (runningLine "0" "x = 1 : run" 0).upcoming?.any Stmt.isNumberAssign := by
    decide +kernel
  have hoccurs := occurs_runningLine "0" "x = 1 : run" 1
  have hsupplies : (runningLine "0" "x = 1 : run" 1).supplies = (prepared "0").machine.supplies := by
    rw [runningLine_succ, Machine.supplies_turn_assign hassign]
    exact supplies_runningLine (by decide +kernel)
  generalize runningLine "0" "x = 1 : run" 1 = m at *
  obtain ⟨hmay, hpending, hleft, hstarts, hbare, hparse⟩ := hstands
  have hat : m.AtRun 1 none := ⟨hoccurs, hmay, by rw [hpending]; exact nofun, hleft, hstarts⟩
  exact ⟨hat, hsupplies, (supplies_turn_run hbare hparse).trans hsupplies⟩

theorem sameSetting_lines : (runningLine "0" "run" 0).turn.SameSetting
    (Renaming.identity.below (prepared "0").machine.heap) (runningLine "0" "x = 1 : run" 1).turn :=
  (reachable_prepared "0").sameSetting atRun_run.2.2 atRun_assigned.2.2

/-! ### Main statement -/

/-- Runs are isolated from each other, whether a program is loaded and run or started by `run`: what
hosts are told and what they fetch depends on nothing but the setting. Where `run` is executed at
another point of a call, this is up to signs of life, pauses that are over and the cutting of texts
until the program halts, and exact from there on. Commands of the host print and store variables, and
do nothing else. -/
theorem runs_isolated {σ : Renaming} :
    (∀ (s s' : Session) (kept kept' : List Snapshot), Reachable .uniform s kept →
      Reachable .uniform s' kept' → s.machine.SameSetting σ s'.machine → s.machine.pending = [] →
      s'.machine.pending = [] → ∀ source, LoadsAlike σ s.machine s'.machine source) ∧
    ∀ (m m' : Machine) (cycles cycles' : Nat) (label : Option String) (held held' : List Value),
      m.AtRun cycles label → m'.AtRun cycles' label → List.Forall₂ (Value.Rel σ) held held' →
      m.turn.SameSetting σ m'.turn → m'.listing = m.listing → m'.clock = m.clock →
      RunsAlike σ held held' cycles cycles' m.turn m'.turn := by
  constructor
  · intro s s' kept kept' hs hs' hset hidle hidle' source
    exact load_isolated hs hs' hset hidle hidle' source
  · intro m m' cycles cycles' label held held' h h' hheld hset hlisting hclock
    exact run_isolated h h' hset hlisting hclock hheld

/-- The session with the listing, whose host has made a map and stored it. -/
def storing : Session :=
  ((prepared "0").serve {} (.store "a" .map)).2

theorem reachable_storing : Reachable .uniform storing [] :=
  .serve (reachable_prepared "0") _ _

theorem Sound.sameSetting_store {s : Session} (h : s.Sound) (clock : Clock) (name : String) :
    s.machine.SameSetting (Renaming.identity.below s.machine.heap)
      (s.serve clock (.store name .map)).2.machine where
  fixtures := rfl
  tracing := rfl
  random := rfl
  heap := h.machine.heap.rel.extend_right s.machine.heap.newMap_extends
  constants := h.machine.scope.constants

theorem sameSetting_storing : (prepared "0").machine.SameSetting
    (Renaming.identity.below (prepared "0").machine.heap) storing.machine := by
  unfold storing
  exact (reachable_prepared "0").sound.1.sameSetting_store {} "a"

/-- A host with nothing of its own against one that has stored a map, and two lines that start the
listing at different points of a call. -/
theorem runs_isolated_storing :
    (storing.held ≠ [] ∧ storing.machine.heap.count .map ≠ (prepared "0").machine.heap.count .map ∧
      ∀ source, LoadsAlike (Renaming.identity.below (prepared "0").machine.heap)
        (prepared "0").machine storing.machine source) ∧
    (runningLine "0" "run" 0).AtRun 2 none ∧ (runningLine "0" "x = 1 : run" 1).AtRun 1 none ∧
    RunsAlike (Renaming.identity.below (prepared "0").machine.heap) [] [] 2 1
      (runningLine "0" "run" 0).turn (runningLine "0" "x = 1 : run" 1).turn := by
  have hidle : (prepared "0").machine.pending = [] ∧ storing.machine.pending = [] := by
    decide +kernel
  refine ⟨⟨?_, ?_, fun source => ?_⟩, atRun_run.1, atRun_assigned.1, ?_⟩
  · decide +kernel
  · decide +kernel
  · exact runs_isolated.1 (prepared "0") storing [] [] (reachable_prepared "0")
      reachable_storing sameSetting_storing hidle.1 hidle.2 source
  · have hlisting : (runningLine "0" "x = 1 : run" 1).listing = (runningLine "0" "run" 0).listing :=
      listing_of_supplies (atRun_assigned.2.1.trans atRun_run.2.1.symm)
    have hclock : (runningLine "0" "x = 1 : run" 1).clock = (runningLine "0" "run" 0).clock := by
      decide +kernel
    exact runs_isolated.2 _ _ _ _ _ _ _ atRun_run.1 atRun_assigned.1 .nil sameSetting_lines hlisting
      hclock

/-- A pause that is over by the next call is told to the host if no text waits when it begins, so it
shows where calls cut the program; so does any pause if the clock moves meanwhile. -/
theorem pause_shows_cut : (runningLine "0" "run" 0).AtRun 2 none ∧
    (runningLine "0" "x = 1 : run" 1).AtRun 1 none ∧
    (runningLine "0" "run" 0).turn.SameSetting (Renaming.identity.below (prepared "0").machine.heap)
      (runningLine "0" "x = 1 : run" 1).turn ∧
    ((polled (fun _ => {}) 2 (runningLine "0" "run" 0).turn 2).halted ∧
      (polled (fun _ => {}) 1 (runningLine "0" "x = 1 : run" 1).turn 3).halted ∧
      Event.heard (polled (fun _ => {}) 2 (runningLine "0" "run" 0).turn 2).told =
        [.print "a\nb\n", .stopped] ∧
      Event.heard (polled (fun _ => {}) 1 (runningLine "0" "x = 1 : run" 1).turn 3).told =
        [.print "a\n", .sleep 0, .print "b\n", .stopped]) ∧
    Event.heard (polled (fun n => { nanos := (n + 1) * 1000000000 }) 2
        (runningLine "1" "run" 0).turn 2).told = [.print "a\nb\n", .stopped] ∧
    Event.heard (polled (fun n => { nanos := (n + 1) * 1000000000 }) 1
        (runningLine "1" "x = 1 : run" 1).turn 2).told = [.print "a\n", .sleep 1000000000] := by
  refine ⟨atRun_run.1, atRun_assigned.1, sameSetting_lines, ?_⟩
  decide +kernel

end Session

end LineBasic
