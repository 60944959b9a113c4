import LineBasic.Proofs.Lockstep

/-!
# Sessions in lockstep

A session is a machine with the values that its host got from it. Whatever a host does in two
sessions that are the same up to renaming, it gets the same answers, and the sessions stay the same
up to renaming. Unless their clocks and random sources are the same too, this holds as long as the
programs that run mention no timed names and nothing is asleep.
-/

namespace LineBasic

set_option autoImplicit false

namespace Machine

def isAsleep (m : Machine) : Bool :=
  match m.status with
  | .asleep _ => true
  | _ => false

/-- The statement that the next turn runs. -/
def upcoming? (m : Machine) : Option (Stmt Address) :=
  m.code.bind fun block => block.statements[m.pc]?

/-- The statements that a machine runs, at most `cycles` of them. -/
def performed : Nat → Machine → List (Stmt Address)
  | 0, _ => []
  | cycles + 1, m => if m.mayStep then m.upcoming?.toList ++ performed cycles m.turn else []

/-- Whether the next event may depend on the clock or on the random source: the machine sleeps, or
it runs a statement that mentions a timed name. -/
def timed (m : Machine) (clock : Clock) : Bool :=
  m.pending.isEmpty && (m.isAsleep || (m.execute clock).2.isAsleep ||
    (performed m.config.maxCycles { m with clock := clock, outputs := 0 }).any Stmt.timed)

/-- A line of the host without its end. -/
def entry (line : String) : List Char :=
  (line.toList.reverse.dropWhile fun c => c == '\n' || c == '\r').reverse

theorem enter_of_input {m : Machine} {line prompt : String} {targets : List String}
    (h : m.status = .input prompt targets) : m.enter line = { m with
      scope := assignFields m.scope targets (inputFields targets (entry line))
      status := .running } := by
  simp only [enter, h, entry]

theorem enter_of_not_input {m : Machine} {line : String}
    (h : ∀ prompt targets, m.status ≠ .input prompt targets) : m.enter line =
      if (Text.trim (entry line)).isEmpty then m
      else match m.listing.placeNumbered? (Text.trim (entry line)) with
        | some listing => { m with listing := listing }
        | none => m.runLine (String.ofList (Text.trim (entry line))) := by
  unfold enter
  dsimp only
  split
  · exact absurd ‹_› (h _ _)
  · rfl

/-! ### What leaves the heap alone -/

theorem heap_trace (m : Machine) (pos : Pos) : (m.trace pos).heap = m.heap := by
  unfold trace
  split <;> rfl

theorem heap_abort (m : Machine) (e : Error) (block : Block) (pos : Pos) :
    (m.abort e block pos).heap = m.heap := by
  unfold abort
  dsimp only
  split <;> rfl

theorem heap_wake (m : Machine) : m.wake.heap = m.heap := by
  unfold wake
  split
  · split <;> rfl
  · rfl

theorem heap_interrupt (m : Machine) : m.interrupt.heap = m.heap := by
  simp only [interrupt]
  split <;> rfl

theorem interrupt_of_stopped {m : Machine} (h : m.status = .stopped) : m.interrupt = m := by
  simp only [interrupt, h]

theorem interrupt_of_none {m : Machine} (hs : m.status ≠ .stopped) (hcode : m.code = none) :
    m.interrupt = { m with status := .stopped } := by
  cases h : m.status with
  | stopped => exact absurd h hs
  | _ => simp only [interrupt, h, hcode]

theorem interrupt_of_code {m : Machine} {block : Block} (h : m.status ≠ .stopped)
    (hcode : m.code = some block) : m.interrupt =
      ({ m with
        status := .stopped, code := none, resume := some (⟨block, m.pc⟩, m.status) } :
        Machine).pushEvent (.error (breakError block m.pc)) := by
  cases hs : m.status with
  | stopped => exact absurd hs h
  | _ => simp only [interrupt, hs, hcode]

namespace Twins

variable {L : Likeness} {m m' : Machine}
  (h : Twins L m m')
include h

/-! ### Turns -/

theorem trace (pos : Pos) : Twins L (m.trace pos) (m'.trace pos) := by
  refine h.update (f := fun x => x.trace pos) (fun x _ => ?_) ?_
  · unfold Machine.trace
    split <;> (split <;> first | rfl | contradiction)
  · unfold Machine.trace
    split <;> rfl

theorem abort (e : Error) {block block' : Block} (hblock : L.numbering.block block block')
    (pos : Pos) : Twins L (m.abort e block pos) (m'.abort e block' pos) := by
  have hstopped := (h.withCode .none).withStatus .stopped
  have hresume : m'.resume.isNone = m.resume.isNone := by
    rw [← Option.not_isSome, ← Option.not_isSome, optionRel_isSome h.resume]
  unfold Machine.abort
  dsimp only
  rw [hresume, L.numbering.source_eq hblock]
  split
  · exact (hstopped.withReturns h.returns.clear).pushEvent _
  · exact hstopped.pushEvent _

theorem fallOff {block block' : Block} (hblock : L.numbering.block block block') :
    Twins L (m.fallOff block) (m'.fallOff block') := by
  have hstopped := (h.withCode .none).withStatus .stopped
  refine hstopped.withResume ?_
  rcases optionRel_cases h.resume with ⟨hnone, hnone'⟩ | ⟨_, _, hsome, hsome', hresume⟩
  · rw [hnone, hnone']
    rcases optionRel_cases (L.numbering.parent hblock) with ⟨hp, hp'⟩ | ⟨_, _, hp, hp', hparent⟩
    · rw [hp, hp']
      exact .none
    · rw [hp, hp']
      exact .some ⟨hparent, rfl⟩
  · rw [hsome, hsome']
    exact .some hresume

theorem step {block block' : Block} (hblock : L.numbering.block block block') (s : Stmt Address)
    (hs : s.timed → L.timely) :
    Twins L (m.step block s) (m'.step block' s) ∧ m.heap.Grows (m.step block s).heap := by
  have hnext := (h.update (f := fun x => { x with pc := x.pc + 1 }) (fun _ _ => rfl) rfl).trace s.pos
  have hheap : (({ m with pc := m.pc + 1 } : Machine).trace s.pos).heap = m.heap := heap_trace _ _
  obtain ⟨hresult, htwins, hgrows⟩ := Action.tracks_exec s hs _ _ hnext fun _ _ _ hr => hr
  rw [hheap] at hgrows
  unfold Machine.step
  revert hresult htwins hgrows
  generalize (Action.exec s).run (({ m with pc := m.pc + 1 } : Machine).trace s.pos) = p
  generalize (Action.exec s).run (({ m' with pc := m'.pc + 1 } : Machine).trace s.pos) = q
  rcases p with ⟨r, m₁⟩
  rcases q with ⟨r', m₁'⟩
  intro hresult htwins hgrows
  cases hresult with
  | ok => exact ⟨htwins, hgrows⟩
  | @error e e' he =>
    obtain rfl : e = e' := he
    refine ⟨htwins.abort e hblock s.pos, ?_⟩
    dsimp only
    rw [heap_abort]
    exact hgrows

theorem turn (hs : ∀ s ∈ m.upcoming?, s.timed → L.timely) :
    Twins L m.turn m'.turn ∧ m.heap.Grows m.turn.heap := by
  rcases optionRel_cases h.code with ⟨hm, hm'⟩ | ⟨block, block', hm, hm', hblock⟩
  · rw [turn_of_none hm, turn_of_none hm']
    exact ⟨h.withStatus .stopped, .refl _⟩
  · have hpc : block'.statements[m'.pc]? = block.statements[m.pc]? := by
      rw [L.numbering.statements_eq hblock, h.pc_eq]
    cases hs' : block.statements[m.pc]? with
    | none =>
      rw [turn_of_end hm hs', turn_of_end hm' (hpc.trans hs')]
      exact ⟨h.fallOff hblock, .refl _⟩
    | some s =>
      rw [turn_of_statement hm hs', turn_of_statement hm' (hpc.trans hs')]
      refine h.step hblock s (hs s ?_)
      rw [upcoming?, hm]
      exact hs'

theorem mayStep_eq : m'.mayStep = m.mayStep := by
  rw [h.rest]
  rfl

theorem runFor (cycles : Nat) (hs : ∀ s ∈ performed cycles m, s.timed → L.timely) :
    Twins L (runFor cycles m) (runFor cycles m') ∧
      m.heap.Grows (Machine.runFor cycles m).heap := by
  induction cycles generalizing m m' with
  | zero => exact ⟨h, .refl _⟩
  | succ cycles ih =>
    rw [runFor_succ, runFor_succ, h.mayStep_eq]
    rw [performed] at hs
    split
    · rename_i hmay
      rw [if_pos hmay] at hs
      obtain ⟨hturn, hgrows⟩ := h.turn fun s hs' =>
        hs s (List.mem_append_left _ (Option.mem_toList.mpr hs'))
      obtain ⟨hrun, hgrows'⟩ := ih hturn fun s hs' => hs s (List.mem_append_right _ hs')
      exact ⟨hrun, hgrows.trans hgrows'⟩
    · exact ⟨h, .refl _⟩

/-! ### Calls of the host -/

omit h in
theorem isContainer_fieldValue (name : String) (field : List Char) :
    (fieldValue name field).isContainer = false := by
  unfold fieldValue
  dsimp only
  split
  · split <;> rfl
  · rfl

omit h in
theorem assignFields_rel {σ : Renaming} {s s' : Scope} (hs : Scope.Rel σ s s')
    (targets : List String) (fields : List (List Char)) :
    Scope.Rel σ (assignFields s targets fields) (assignFields s' targets fields) := by
  induction targets generalizing s s' fields with
  | nil => exact hs
  | cons name names ih => exact ih (hs.store name (.scalar (isContainer_fieldValue _ _))) _

theorem wake (hawake : m.isAsleep → L.timely) : Twins L m.wake m'.wake := by
  unfold isAsleep at hawake
  unfold Machine.wake
  rw [h.status_eq]
  cases hs : m.status with
  | asleep wake =>
    rw [hs] at hawake
    have hclock : m'.clock.nanos = m.clock.nanos := by rw [h.clock (hawake rfl)]
    dsimp only
    rw [hclock]
    split
    · exact h
    · exact h.update (f := fun x => { x with status := .running }) (fun _ _ => rfl) rfl
  | _ => exact h

theorem statusEvent_eq (hawake : m.isAsleep → L.timely) : m'.statusEvent = m.statusEvent := by
  unfold isAsleep at hawake
  unfold statusEvent
  rw [h.status_eq]
  cases hs : m.status with
  | asleep wake =>
    rw [hs] at hawake
    rw [← h.clock (hawake rfl)]
  | _ => rfl

theorem tell (hawake : m.pending = [] → m.isAsleep → L.timely) : m'.tell.1 = m.tell.1 ∧
    Twins L m.tell.2 m'.tell.2 ∧ m.heap.Grows m.tell.2.heap := by
  unfold Machine.tell
  rw [h.pending_eq]
  cases hp : m.pending with
  | nil => exact ⟨h.statusEvent_eq (hawake hp), h, .refl _⟩
  | cons e rest =>
    exact ⟨rfl, h.update (f := fun x => { x with pending := rest }) (fun _ _ => rfl) rfl,
      .refl _⟩

theorem quantum
    (hs : ∀ s ∈ performed m.config.maxCycles { m with outputs := 0 }, s.timed → L.timely) :
    Twins L m.quantum m'.quantum ∧ m.heap.Grows m.quantum.heap := by
  have hcycles : m'.config.maxCycles = m.config.maxCycles := congrArg (·.config.maxCycles) h.rest
  by_cases hrunning : m.status = .running
  · rw [Machine.quantum, Machine.quantum, if_pos hrunning, if_pos (h.status_eq.trans hrunning), hcycles]
    exact (h.update (f := fun x => { x with outputs := 0 }) (fun _ _ => rfl) rfl).runFor _ hs
  · rw [Machine.quantum, Machine.quantum, if_neg hrunning, if_neg (h.status_eq ▸ hrunning)]
    exact ⟨h, .refl _⟩

theorem execute {clock clock' : Clock} (hclock : L.timely → clock = clock')
    (ht : m.timed clock → L.timely) : (m'.execute clock').1 = (m.execute clock).1 ∧
    Twins L (m.execute clock).2 (m'.execute clock').2 ∧
      m.heap.Grows (m.execute clock).2.heap := by
  cases hp : m.pending with
  | cons e rest =>
    rw [execute_of_cons hp, execute_of_cons (h.pending_eq.trans hp)]
    exact ⟨rfl, (h.withClock hclock).update (f := fun x => { x with pending := rest })
      (fun _ _ => rfl) rfl, .refl _⟩
  | nil =>
    have hempty : m.pending.isEmpty = true := List.isEmpty_iff.mpr hp
    rw [timed, hempty, Bool.true_and, Bool.or_eq_true, Bool.or_eq_true, execute_of_nil hp] at ht
    rw [execute_of_nil hp, execute_of_nil (h.pending_eq.trans hp)]
    have hwake := (h.withClock hclock).wake fun hasleep => ht (.inl (.inl hasleep))
    have hheap : ({ m with clock := clock } : Machine).wake.heap = m.heap := heap_wake _
    -- A machine that sleeps is timely; any other one is already awake.
    obtain ⟨hquantum, hgrows⟩ := hwake.quantum fun s hs hs' => by
      by_cases hasleep : m.isAsleep
      · exact ht (.inl (.inl hasleep))
      · rw [wake_of_not_asleep fun wake hstatus => hasleep (by rw [isAsleep, hstatus])] at hs
        exact ht (.inr (List.any_eq_true.mpr ⟨s, hs, hs'⟩))
    obtain ⟨hevent, htold, hgrows'⟩ := hquantum.tell fun hnil hasleep => by
      refine ht (.inl (.inr ?_))
      rw [Machine.tell, hnil]
      exact hasleep
    rw [hheap] at hgrows
    exact ⟨hevent, htold, hgrows.trans hgrows'⟩

theorem interrupt : Twins L m.interrupt m'.interrupt := by
  by_cases hs : m.status = .stopped
  · rw [interrupt_of_stopped hs, interrupt_of_stopped (h.status_eq.trans hs)]
    exact h
  · have hs' : m'.status ≠ .stopped := h.status_eq ▸ hs
    rcases optionRel_cases h.code with ⟨hm, hm'⟩ | ⟨block, block', hm, hm', hblock⟩
    · rw [interrupt_of_none hs hm, interrupt_of_none hs' hm']
      exact h.withStatus .stopped
    · have hresume : Option.Rel (fun p p' : Frame × Status => L.Frames p.1 p'.1 ∧ p.2 = p'.2)
          (some (⟨block, m.pc⟩, m.status)) (some (⟨block', m'.pc⟩, m'.status)) :=
        .some ⟨⟨hblock, h.pc_eq.symm⟩, h.status_eq.symm⟩
      have hbreak : breakError block' m'.pc = breakError block m.pc := by
        unfold breakError
        rw [L.numbering.statements_eq hblock, L.numbering.source_eq hblock, h.pc_eq]
      rw [interrupt_of_code hs hm, interrupt_of_code hs' hm', hbreak]
      have hstopped := (h.withCode .none).withStatus .stopped
      exact (hstopped.withResume hresume).pushEvent _

theorem setListing (listing : Listing) :
    Twins L (m.setListing listing) (m'.setListing listing) :=
  (h.withScope h.scope.clear).update (f := fun x => { x with listing := listing })
    (fun _ _ => rfl) rfl

theorem store (name : String) {v w : Value} (hvw : Value.Rel (L.below m.heap) v w) :
    Twins L (m.store name v) (m'.store name w) :=
  h.withScope (h.scope.store _ hvw)

theorem compile (source : String) {parent parent' : Option Frame}
    (hparent : Option.Rel L.Frames parent parent') :
    Except.Related Eq L.numbering.block (m.compile source parent).1 (m'.compile source parent').1 ∧
      Twins L (m.compile source parent).2 (m'.compile source parent').2 ∧
        m.heap.Grows (m.compile source parent).2.heap := by
  have htracks := Action.tracks_compile source hparent m m' h fun _ _ _ hr => hr
  simp only [Action.run_mk] at htracks
  exact htracks

theorem compileListing :
    Except.Related Eq L.numbering.block m.compileListing.1 m'.compileListing.1 ∧
      Twins L m.compileListing.2 m'.compileListing.2 ∧ m.heap.Grows m.compileListing.2.heap := by
  have htracks := Action.tracks_compileListing m m' h fun _ _ _ hr => hr
  simp only [Action.run_mk] at htracks
  exact htracks

theorem load (source : String) :
    Except.Related Eq L.numbering.block (m.load source).1 (m'.load source).1 ∧
      Twins L (m.load source).2 (m'.load source).2 ∧ m.heap.Grows (m.load source).2.heap := by
  unfold Machine.load
  exact (h.update (f := fun x => { x with listing := .ofSource source }) (fun _ _ => rfl)
    rfl).compileListing

theorem runLine (line : String) : Twins L (m.runLine line) (m'.runLine line) ∧
    m.heap.Grows (m.runLine line).heap := by
  have hparent : Option.Rel L.Frames (m.resume.map (·.1)) (m'.resume.map (·.1)) := by
    rcases optionRel_cases h.resume with ⟨hm, hm'⟩ | ⟨_, _, hm, hm', hresume⟩
    · rw [hm, hm']
      exact .none
    · rw [hm, hm']
      exact .some hresume.1
  have hcompile := h.compile line hparent
  unfold Machine.runLine
  revert hcompile
  generalize m.compile line (m.resume.map (·.1)) = p
  generalize m'.compile line (m'.resume.map (·.1)) = q
  rcases p with ⟨r, m₁⟩
  rcases q with ⟨r', m₁'⟩
  rintro ⟨hresult, htwins, hgrows⟩
  cases hresult with
  | ok hblock => exact ⟨Action.twins_run htwins hblock 0, hgrows⟩
  | @error e e' he =>
    obtain rfl : e = e' := he
    exact ⟨htwins.pushEvent _, hgrows⟩

theorem enter (line : String) : Twins L (m.enter line) (m'.enter line) ∧
    m.heap.Grows (m.enter line).heap := by
  by_cases hinput : ∃ prompt targets, m.status = .input prompt targets
  · obtain ⟨prompt, targets, hs⟩ := hinput
    rw [enter_of_input hs, enter_of_input (h.status_eq.trans hs)]
    refine ⟨?_, .refl _⟩
    exact (h.withScope (assignFields_rel h.scope targets _)).update
      (f := fun x => { x with status := .running }) (fun _ _ => rfl) rfl
  · have hs : ∀ prompt targets, m.status ≠ .input prompt targets :=
      fun prompt targets hs => hinput ⟨prompt, targets, hs⟩
    rw [enter_of_not_input hs, enter_of_not_input (h.status_eq ▸ hs)]
    split
    · exact ⟨h, .refl _⟩
    · cases hplace : m.listing.placeNumbered? (Text.trim (entry line)) with
      | some listing =>
        rw [h.listing_eq, hplace]
        exact ⟨h.update (f := fun x => { x with listing := listing }) (fun _ _ => rfl) rfl,
          .refl _⟩
      | none =>
        rw [h.listing_eq, hplace]
        exact h.runLine _

end Twins

/-! ### Between calls of the host -/

/-- The machine without its count of outputs, which starts anew with the next call. -/
def idle (m : Machine) : Machine :=
  { m with outputs := 0 }

theorem heap_idle (m : Machine) : m.idle.heap = m.heap := rfl

theorem Twins.idle {L : Likeness} {m m' : Machine}
    (h : Twins L m m') : Twins L m.idle m'.idle :=
  h.update (f := Machine.idle) (fun _ _ => rfl) rfl

theorem Moves.idle {f : Machine → Machine} (hf : Moves f) (m : Machine) :
    (f m.idle).idle = (f m).idle := by
  obtain ⟨g, -, hg⟩ := hf
  rw [hg, hg]
  rfl

theorem load_idle (m : Machine) (source : String) :
    m.idle.load source = ((m.load source).1, (m.load source).2.idle) := by
  unfold load compileListing compile
  dsimp only [Machine.idle]
  generalize Program.compile _ _ _ _ = x
  cases x <;> rfl

theorem wake_of_asleep {m : Machine} {wake : Nat} (h : m.status = .asleep wake) :
    m.wake = if m.clock.nanos < wake then m else { m with status := .running } := by
  simp only [Machine.wake, h]

theorem wake_idle (m : Machine) : m.idle.wake = m.wake.idle := by
  by_cases hasleep : ∃ wake, m.status = .asleep wake
  · obtain ⟨wake, hs⟩ := hasleep
    have hs' : m.idle.status = .asleep wake := hs
    rw [wake_of_asleep hs, wake_of_asleep hs', apply_ite Machine.idle]
    rfl
  · have hs : ∀ wake, m.status ≠ .asleep wake := fun wake hs => hasleep ⟨wake, hs⟩
    have hs' : ∀ wake, m.idle.status ≠ .asleep wake := hs
    rw [wake_of_not_asleep hs, wake_of_not_asleep hs']

theorem quantum_idle (m : Machine) : m.idle.quantum.idle = m.quantum.idle := by
  by_cases hrunning : m.status = .running
  · have hrunning' : m.idle.status = .running := hrunning
    rw [quantum, quantum, if_pos hrunning, if_pos hrunning']
    rfl
  · have hrunning' : m.idle.status ≠ .running := hrunning
    rw [quantum, quantum, if_neg hrunning, if_neg hrunning']
    rfl

theorem tell_of_idle {m m' : Machine} (h : m.idle = m'.idle) :
    m.tell.1 = m'.tell.1 ∧ m.tell.2.idle = m'.tell.2.idle := by
  have htell (m : Machine) : m.tell.1 = m.idle.tell.1 ∧ m.tell.2.idle = m.idle.tell.2.idle := by
    unfold tell
    dsimp only [Machine.idle]
    split <;> exact ⟨rfl, rfl⟩
  obtain ⟨hevent, hidle⟩ := htell m
  obtain ⟨hevent', hidle'⟩ := htell m'
  rw [hevent, hidle, hevent', hidle', h]
  exact ⟨rfl, rfl⟩

theorem execute_idle (m : Machine) (clock : Clock) :
    (m.idle.execute clock).1 = (m.execute clock).1 ∧
      (m.idle.execute clock).2.idle = (m.execute clock).2.idle := by
  have hpending : m.idle.pending = m.pending := rfl
  cases hp : m.pending with
  | cons e rest =>
    rw [execute_of_cons hp, execute_of_cons (hpending.trans hp)]
    exact ⟨rfl, rfl⟩
  | nil =>
    rw [execute_of_nil hp, execute_of_nil (hpending.trans hp)]
    apply tell_of_idle
    have hwake : ({ m.idle with clock := clock } : Machine).wake =
        ({ m with clock := clock } : Machine).wake.idle := wake_idle { m with clock := clock }
    rw [hwake, quantum_idle]

theorem timed_idle (m : Machine) (clock : Clock) : m.idle.timed clock = m.timed clock := by
  have hasleep := congrArg isAsleep (execute_idle m clock).2
  have hsame (x : Machine) : x.idle.isAsleep = x.isAsleep := rfl
  rw [hsame, hsame] at hasleep
  unfold timed
  rw [hasleep]
  rfl

end Machine

/-! ### Sessions -/

/-- A value that is no container. -/
abbrev Scalar := { v : Value // v.isContainer = false }

/-- What a host can hand over: a scalar, a new array or map, or something that it already holds. -/
inductive HostValue where
  | scalar (v : Scalar)
  | array (sizes : List Scalar)
  | map
  | held (i : Nat)

/-- What a host can do with a machine. -/
inductive HostOp where
  | load (source : String)
  | run (block : Block) (addr : Address)
  | enter (line : String)
  | execute
  | interrupt
  | setListing (listing : Listing)
  | store (name : String) (value : HostValue)
  | fetch (name : String)

inductive Reply where
  | done
  | loaded (result : Except Error Block)
  | event (event : Event)
  | refused (error : Error)
  | fetched (value : Option Value)

/-- A machine and the values that its host got from it or made, in order. -/
structure Session where
  machine : Machine
  held : List Value

namespace Session

/-- The value that a host hands over. The host keeps what it makes. -/
def supply (s : Session) : HostValue → Except Error (Value × Session)
  | .scalar v => .ok (v, s)
  | .array sizes => (s.machine.heap.dim (sizes.map (·.1))).map fun r =>
    (r.1, ⟨{ s.machine with heap := r.2 }, s.held ++ [r.1]⟩)
  | .map =>
    let r := s.machine.heap.newMap
    .ok (r.1, ⟨{ s.machine with heap := r.2 }, s.held ++ [r.1]⟩)
  | .held i => .ok (s.held.getD i (.bool false), s)

/-- What the host gets for something that it does, at some time, and how things stand then. -/
def serve (s : Session) (clock : Clock) : HostOp → Reply × Session
  | .load source =>
    let r := s.machine.load source
    (.loaded r.1, { s with machine := r.2 })
  | .run block addr => (.done, { s with machine := s.machine.run block addr })
  | .enter line => (.done, { s with machine := s.machine.enter line })
  | .execute =>
    let r := s.machine.execute clock
    (.event r.1, { s with machine := r.2 })
  | .interrupt => (.done, { s with machine := s.machine.interrupt })
  | .setListing listing => (.done, { s with machine := s.machine.setListing listing })
  | .store name value =>
    match s.supply value with
    | .ok (v, s) => (.done, { s with machine := s.machine.store name v })
    | .error e => (.refused e, s)
  | .fetch name =>
    let v := s.machine.fetch name
    (.fetched v, { s with held := s.held ++ v.toList })

def serveAll (s : Session) : List (HostOp × Clock) → List Reply × Session
  | [] => ([], s)
  | (op, clock) :: ops =>
    let r := s.serve clock op
    let rest := r.2.serveAll ops
    (r.1 :: rest.1, rest.2)

/-- Whether what the host gets may depend on the clock or on the random source. -/
def timed (s : Session) (clock : Clock) : HostOp → Bool
  | .execute => s.machine.timed clock
  | _ => false

def anyTimed (s : Session) : List (HostOp × Clock) → Bool
  | [] => false
  | (op, clock) :: ops => s.timed clock op || (s.serve clock op).2.anyTimed ops

end Session

/-! ### What stays -/

namespace Session

/-- Values that the host supplies need room for containers, and nothing else of the machine. -/
theorem supply_machine {s s' : Session} {value : HostValue} {v : Value}
    (h : s.supply value = .ok (v, s')) : ∃ heap, s'.machine = { s.machine with heap := heap } := by
  cases value with
  | scalar =>
    cases h
    exact ⟨_, rfl⟩
  | map =>
    cases h
    exact ⟨_, rfl⟩
  | held =>
    cases h
    exact ⟨_, rfl⟩
  | array sizes =>
    rw [supply] at h
    cases hdim : s.machine.heap.dim (sizes.map (·.1)) with
    | error e =>
      rw [hdim] at h
      cases h
    | ok r =>
      rw [hdim] at h
      cases h
      exact ⟨_, rfl⟩

theorem supply_fixtures {s s' : Session} {value : HostValue} {v : Value}
    (h : s.supply value = .ok (v, s')) : s'.machine.fixtures = s.machine.fixtures := by
  obtain ⟨heap, hheap⟩ := supply_machine h
  rw [hheap]
  rfl

theorem serve_fixtures (s : Session) (clock : Clock) (op : HostOp) :
    (s.serve clock op).2.machine.fixtures = s.machine.fixtures := by
  cases op with
  | load source =>
    unfold serve Machine.load Machine.compileListing Machine.compile
    dsimp only
    generalize Program.compile _ _ _ _ = x
    cases x <;> rfl
  | enter line => exact (Machine.moves_enter line).fixtures s.machine
  | execute => exact Machine.execute_fixtures s.machine clock
  | interrupt => exact Machine.moves_interrupt.fixtures s.machine
  | store name value =>
    unfold serve
    dsimp only
    split
    · rename_i hsupply
      have hkept := supply_fixtures hsupply
      exact hkept
    · rfl
  | run => rfl
  | setListing => rfl
  | fetch => rfl

theorem serveAll_fixtures (s : Session) (ops : List (HostOp × Clock)) :
    (s.serveAll ops).2.machine.fixtures = s.machine.fixtures := by
  induction ops generalizing s with
  | nil => rfl
  | cons o ops ih =>
    obtain ⟨op, clock⟩ := o
    exact (ih _).trans (s.serve_fixtures clock op)

end Session

/-! ### Sessions that are alike -/

/-- The same operation, with a block that corresponds. -/
inductive HostOp.Rel (R : Block → Block → Prop) : HostOp → HostOp → Prop where
  | same (op : HostOp) : Rel R op op
  | run {block block' : Block} (h : R block block') (addr : Address) :
    Rel R (.run block addr) (.run block' addr)

/-- The same answer, but for the places of containers and with a block that corresponds. -/
inductive Reply.Rel (R : Block → Block → Prop) (σ : Renaming) : Reply → Reply → Prop where
  | done : Rel R σ .done .done
  | loaded {x y : Except Error Block} (h : Except.Related Eq R x y) : Rel R σ (.loaded x) (.loaded y)
  | event (event : Event) : Rel R σ (.event event) (.event event)
  | refused (error : Error) : Rel R σ (.refused error) (.refused error)
  | fetched {v w : Option Value} (h : Option.Rel (Value.Rel σ) v w) :
    Rel R σ (.fetched v) (.fetched w)

theorem Reply.Rel.mono {R : Block → Block → Prop} {σ τ : Renaming} (hle : σ.Le τ) {r r' : Reply}
    (h : r.Rel R σ r') : r.Rel R τ r' := by
  cases h with
  | done => exact .done
  | loaded h => exact .loaded h
  | event e => exact .event e
  | refused e => exact .refused e
  | fetched h => exact .fetched (optionRel_imp (fun _ _ => .mono hle) h)

/-- Sessions whose machines are the same but for what they are compared by. -/
structure Session.Alike (L : Likeness) (s s' : Session) : Prop where
  machine : s.machine.idle.Twins L s'.machine.idle
  held : List.Forall₂ (Value.Rel (L.below s.machine.heap)) s.held s'.held

namespace Session.Alike

variable {L : Likeness} {s s' : Session}
  (h : Alike L s s')
include h

theorem withHeap {H H' : Heap} (hH : Heap.Twins L.refs L.base H H') (hgrows : s.machine.heap.Grows H)
    {v w : Value} (hvw : Value.Rel (L.below H) v w) :
    Alike L ⟨{ s.machine with heap := H }, s.held ++ [v]⟩
      ⟨{ s'.machine with heap := H' }, s'.held ++ [w]⟩ :=
  ⟨h.machine.withHeap hH hgrows,
    List.rel_append (h.held.imp fun _ _ => .mono (hgrows.below L.refs)) (.cons hvw .nil)⟩

theorem supply (value : HostValue) :
    Except.Related Eq (fun r r' => Alike L r.2 r'.2 ∧
      s.machine.heap.Grows r.2.machine.heap ∧
        Value.Rel (L.below r.2.machine.heap) r.1 r'.1) (s.supply value) (s'.supply value) := by
  cases value with
  | scalar v => exact .ok ⟨h, .refl _, .scalar v.2⟩
  | array sizes =>
    have hsizes : List.Forall₂ (Value.Rel (L.below s.machine.heap)) (sizes.map (·.1))
        (sizes.map (·.1)) := by
      refine List.forall₂_same.mpr fun v hv => ?_
      obtain ⟨v, -, rfl⟩ := List.mem_map.mp hv
      exact .scalar v.2
    refine Except.Related.map (h.machine.heap.dim hsizes) ?_
    rintro r r' ⟨htwins, hgrows, hvalue⟩
    exact ⟨h.withHeap htwins hgrows hvalue, hgrows, hvalue⟩
  | map =>
    obtain ⟨htwins, hvalue⟩ := h.machine.heap.newMap
    have hgrows := s.machine.heap.newMap_extends.grows
    exact .ok ⟨h.withHeap htwins hgrows hvalue, hgrows, hvalue⟩
  | held i =>
    refine .ok ⟨h, .refl _, ?_⟩
    rw [List.getD_eq_getElem?_getD, List.getD_eq_getElem?_getD]
    exact optionRel_getD (forall₂_getElem? h.held i) (.scalar rfl)

theorem withMachine {m m' : Machine} (hm : m.idle.Twins L m'.idle)
    (hgrows : s.machine.heap.Grows m.heap) :
    Alike L { s with machine := m } { s' with machine := m' } :=
  ⟨hm, h.held.imp fun _ _ => .mono (hgrows.below L.refs)⟩

theorem ofMoves {f : Machine → Machine} (hf : Machine.Moves f)
    (htwins : (f s.machine.idle).Twins L (f s'.machine.idle) ∧
      s.machine.heap.Grows (f s.machine.idle).heap) :
    Alike L { s with machine := f s.machine } { s' with machine := f s'.machine } ∧
      s.machine.heap.Grows (f s.machine).heap := by
  have hheap : (f s.machine.idle).heap = (f s.machine).heap :=
    congrArg (·.heap) (hf.idle s.machine)
  have hidle := htwins.1.idle
  rw [hf.idle, hf.idle] at hidle
  have hgrows := htwins.2
  rw [hheap] at hgrows
  exact ⟨h.withMachine hidle hgrows, hgrows⟩

theorem execute {clock clock' : Clock} (hclock : L.timely → clock = clock')
    (ht : s.machine.timed clock → L.timely) :
    (s'.machine.execute clock').1 = (s.machine.execute clock).1 ∧
      Alike L { s with machine := (s.machine.execute clock).2 }
        { s' with machine := (s'.machine.execute clock').2 } ∧
      s.machine.heap.Grows (s.machine.execute clock).2.heap := by
  obtain ⟨hevent, hidle⟩ := Machine.execute_idle s.machine clock
  obtain ⟨hevent', hidle'⟩ := Machine.execute_idle s'.machine clock'
  rw [← Machine.timed_idle] at ht
  obtain ⟨hsame, htwins, hgrows⟩ := h.machine.execute hclock ht
  have hheap : (s.machine.idle.execute clock).2.heap = (s.machine.execute clock).2.heap :=
    congrArg (·.heap) hidle
  have hdone := htwins.idle
  rw [hidle, hidle'] at hdone
  rw [hheap] at hgrows
  rw [hevent, hevent'] at hsame
  exact ⟨hsame, h.withMachine hdone hgrows, hgrows⟩

theorem run {block block' : Block} (hblock : L.numbering.block block block') (addr : Address) :
    Alike L { s with machine := s.machine.run block addr }
      { s' with machine := s'.machine.run block' addr } :=
  h.withMachine (Action.twins_run h.machine hblock addr) (.refl _)

theorem serve {clock clock' : Clock} (hclock : L.timely → clock = clock') {op op' : HostOp}
    (hop : op.Rel L.numbering.block op') (ht : s.timed clock op → L.timely) :
    Reply.Rel L.numbering.block (L.below (s.serve clock op).2.machine.heap) (s.serve clock op).1
        (s'.serve clock' op').1 ∧
      Alike L (s.serve clock op).2 (s'.serve clock' op').2 ∧
      s.machine.heap.Grows (s.serve clock op).2.machine.heap := by
  rcases hop with _ | ⟨hblock, addr⟩
  case run => exact ⟨.done, h.run hblock addr, .refl _⟩
  cases op with
  | load source =>
    obtain ⟨hresult, htwins, hgrows⟩ := h.machine.load source
    rw [Machine.load_idle, Machine.load_idle] at hresult htwins
    rw [Machine.load_idle, Machine.heap_idle, Machine.heap_idle] at hgrows
    unfold Session.serve
    dsimp only at hresult htwins hgrows ⊢
    exact ⟨.loaded hresult, h.withMachine htwins hgrows, hgrows⟩
  | run block addr => exact ⟨.done, h.run (L.numbering.refl block) addr, .refl _⟩
  | enter line =>
    exact ⟨.done, h.ofMoves (Machine.moves_enter line) (h.machine.enter line)⟩
  | execute =>
    obtain ⟨hevent, hdone⟩ := h.execute hclock ht
    unfold Session.serve
    dsimp only
    rw [hevent]
    exact ⟨.event _, hdone⟩
  | interrupt =>
    refine ⟨.done, h.ofMoves Machine.moves_interrupt ⟨h.machine.interrupt, ?_⟩⟩
    rw [Machine.heap_interrupt]
    exact .refl _
  | setListing listing =>
    exact ⟨.done, h.withMachine (h.machine.setListing listing) (.refl _), .refl _⟩
  | store name value =>
    have hsupply := h.supply value
    unfold Session.serve
    dsimp only
    revert hsupply
    generalize s.supply value = x
    generalize s'.supply value = y
    intro hsupply
    cases hsupply with
    | ok hr =>
      obtain ⟨halike, hgrows, hvalue⟩ := hr
      exact ⟨.done, halike.withMachine (halike.machine.store name hvalue) (.refl _), hgrows⟩
    | error he =>
      cases he
      exact ⟨.refused _, h, .refl _⟩
  | fetch name =>
    have hfetch := h.machine.scope.fetch (Text.fold name)
    exact ⟨.fetched hfetch, ⟨h.machine, List.rel_append h.held (optionRel_toList hfetch)⟩, .refl _⟩

/-- What a host gets from two sessions that are alike is the same up to renaming, one operation
after another. -/
theorem serveAll {ops ops' : List (HostOp × Clock)}
    (hops : List.Forall₂ (fun o o' => o.1 = o'.1 ∧ (L.timely → o.2 = o'.2)) ops ops')
    (ht : s.anyTimed ops → L.timely) :
    List.Forall₂ (Reply.Rel L.numbering.block (L.below (s.serveAll ops).2.machine.heap))
        (s.serveAll ops).1 (s'.serveAll ops').1 ∧
      Alike L (s.serveAll ops).2 (s'.serveAll ops').2 ∧
      s.machine.heap.Grows (s.serveAll ops).2.machine.heap := by
  induction hops generalizing s s' with
  | nil => exact ⟨.nil, h, .refl _⟩
  | @cons o o' ops ops' ho hops ih =>
    obtain ⟨op, clock⟩ := o
    obtain ⟨op', clock'⟩ := o'
    obtain ⟨rfl, hclock⟩ := ho
    rw [Session.anyTimed, Bool.or_eq_true] at ht
    obtain ⟨hreply, hserved, hgrows⟩ := h.serve hclock (.same op) fun hop => ht (.inl hop)
    obtain ⟨hreplies, hdone, hgrows'⟩ := ih hserved fun hrest => ht (.inr hrest)
    exact ⟨.cons (hreply.mono (hgrows'.below L.refs)) hreplies, hdone, hgrows.trans hgrows'⟩

end Session.Alike

/-! ### Sessions that a host can come to -/

/-- Which functions and commands a host may add, by name. -/
structure Extensions where
  function : String → Function → Prop
  command : String → Command → Prop

/-- Sessions that a host can come to, with the snapshots that it keeps. Functions that the host adds
read the machine, and its commands print and store variables; neither can do anything else to it. -/
inductive Session.Reachable (ext : Extensions) : Session → List Snapshot → Prop where
  | new (config : Config) (random : Random) : Reachable ext ⟨Machine.new config random, []⟩ []
  | serve {s : Session} {kept : List Snapshot} (h : Reachable ext s kept) (clock : Clock)
    (op : HostOp) : Reachable ext (s.serve clock op).2 kept
  | print {s : Session} {kept : List Snapshot} (h : Reachable ext s kept) (text : String) :
    Reachable ext { s with machine := s.machine.print text } kept
  | defineConstant {s s' : Session} {kept : List Snapshot} {value : HostValue} {v : Value}
    (h : Reachable ext s kept) (name : String) (hv : s.supply value = .ok (v, s')) :
    Reachable ext { s' with machine := s'.machine.defineConstant name v } kept
  | defineFunction {s : Session} {kept : List Snapshot} (h : Reachable ext s kept) {name : String}
    {f : Function} (hf : ext.function name f) :
    Reachable ext { s with machine := s.machine.defineFunction name f } kept
  | defineCommand {s : Session} {kept : List Snapshot} (h : Reachable ext s kept) {name : String}
    {c : Command} (hc : ext.command name c) :
    Reachable ext { s with machine := s.machine.defineCommand name c } kept
  | snapshot {s : Session} {kept : List Snapshot} (h : Reachable ext s kept) :
    Reachable ext { s with machine := s.machine.snapshot.2 } (s.machine.snapshot.1 :: kept)
  | restore {s : Session} {kept : List Snapshot} (h : Reachable ext s kept) {snap : Snapshot}
    (hsnap : snap ∈ kept) : Reachable ext { s with machine := s.machine.restore snap } kept

end LineBasic
