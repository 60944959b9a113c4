import LineBasic.Proofs.LeftCalls
import LineBasic.Proofs.WellFormed

/-!
# Events are delivered once and in order

What a host is told, followed by what still waits, is what statements and calls of the host had to
tell, in order and with texts that meet joined. A call for the next event runs statements only when
nothing waits, and only as long as nothing but text waits; its budgets bound how many it runs and how
often these make an output. It reports the machine's status only if there is nothing else to tell.
-/

namespace LineBasic

set_option autoImplicit false

namespace Machine

variable {m : Machine}

/-! ### The turns of a call -/

/-- The machines that make a turn while a machine runs for a while. -/
def turning : Nat → Machine → List Machine
  | 0, _ => []
  | cycles + 1, m => if m.mayStep then m :: turning cycles m.turn else []

/-- The machines that make a turn in a call for the next event. -/
def turns (m : Machine) (clock : Clock) : List Machine :=
  if m.pending.isEmpty then turning m.config.maxCycles (m.called clock) else []

/-- How many output operations some turns make together. -/
def efforts : List Machine → Nat
  | [] => 0
  | m :: run => m.effort + efforts run

theorem turns_of_nil (h : m.pending = []) (clock : Clock) :
    m.turns clock = turning m.config.maxCycles (m.called clock) := by
  rw [turns, h]
  rfl

theorem turns_of_cons {e : Event} {rest : List Event} (h : m.pending = e :: rest) (clock : Clock) :
    m.turns clock = [] := by
  rw [turns, h]
  rfl

theorem length_turning_le (cycles : Nat) (m : Machine) : (turning cycles m).length ≤ cycles := by
  induction cycles generalizing m with
  | zero => exact Nat.le_refl 0
  | succ cycles ih =>
    rw [turning]
    split
    · exact Nat.succ_le_succ (ih m.turn)
    · exact Nat.zero_le _

theorem turning_eq_iterate (cycles : Nat) (m : Machine) :
    turning cycles m = List.iterate turn m (turning cycles m).length ∧
      runFor cycles m = turn^[(turning cycles m).length] m := by
  induction cycles generalizing m with
  | zero => exact ⟨rfl, rfl⟩
  | succ cycles ih =>
    rw [turning, runFor_succ]
    split
    · obtain ⟨hturns, hrun⟩ := ih m.turn
      rw [List.length_cons, List.iterate, Function.iterate_succ_apply]
      exact ⟨congrArg (m :: ·) hturns, hrun⟩
    · exact ⟨rfl, rfl⟩

/-- What a machine has to deliver after it ran is what its turns told, in order. -/
theorem runFor_told (cycles : Nat) (m : Machine) : (runFor cycles m).pending =
    ((turning cycles m).flatMap voice).foldl Event.hear m.pending := by
  induction cycles generalizing m with
  | zero => rfl
  | succ cycles ih =>
    rw [turning, runFor_succ]
    split
    · rw [ih, List.flatMap_cons, List.foldl_append, m.turn_told.1]
    · rfl

theorem texts_turn (h : ∀ e ∈ m.pending, e.isPrint) : ∀ e ∈ m.turn.pending.dropLast, e.isPrint := by
  obtain ⟨g, -, hg⟩ := moves_turn
  rw [hg m]
  exact Utterance.isPrint_of_mem_dropLast_extend _ h

/-- Whenever a turn is made, the machine is running and only texts wait. The invariant between turns
is weaker: the last event that waits may be of another kind, and then the run is over. -/
theorem texts_of_mem_turning {cycles : Nat} (h : ∀ e ∈ m.pending.dropLast, e.isPrint) :
    ∀ k ∈ turning cycles m, k.status = .running ∧ ∀ e ∈ k.pending, e.isPrint := by
  induction cycles generalizing m with
  | zero => exact List.forall_mem_nil _
  | succ cycles ih =>
    rw [turning]
    split
    · rename_i hmay
      have hnow := texts_of_mayStep hmay h
      exact List.forall_mem_cons.mpr ⟨hnow, ih (texts_turn hnow.2)⟩
    · exact List.forall_mem_nil _

theorem outputs_lt_of_mayStep (h : m.mayStep) : m.outputs < m.config.maxOutputs := by
  simp only [mayStep, Bool.and_eq_true, decide_eq_true_eq] at h
  exact h.1.2

theorem config_turn (m : Machine) : m.turn.config = m.config :=
  moves_turn.config m

theorem Terse.turn (h : m.Terse) : m.turn.Terse :=
  h.of_commands (congrArg (·.2.1) (moves_turn.fixtures m))

/-- All turns but the last together stay below the budget for outputs. -/
theorem effort_dropLast_lt {cycles : Nat} (h : turning cycles m ≠ []) :
    m.outputs + efforts (turning cycles m).dropLast < m.config.maxOutputs := by
  induction cycles generalizing m with
  | zero => exact absurd rfl h
  | succ cycles ih =>
    rw [turning] at h ⊢
    split at h
    · rename_i hmay
      rw [if_pos hmay]
      have hnow := outputs_lt_of_mayStep hmay
      cases hlater : turning cycles m.turn with
      | nil => exact hnow
      | cons k ks =>
        have hrest := ih (m := m.turn) (by rw [hlater]; nofun)
        rw [hlater, m.turn_told.2, config_turn] at hrest
        rw [List.dropLast_cons_cons, efforts]
        omega
    · exact absurd rfl h

theorem effort_turning_le (cycles : Nat) (hterse : m.Terse) (h : m.outputs ≤ m.config.maxOutputs) :
    m.outputs + efforts (turning cycles m) ≤ m.config.maxOutputs := by
  induction cycles generalizing m with
  | zero => exact h
  | succ cycles ih =>
    rw [turning]
    split
    · rename_i hmay
      have hnow := outputs_lt_of_mayStep hmay
      have hone := effort_le_one hterse
      have hrest := ih hterse.turn (by rw [m.turn_told.2, config_turn]; omega)
      rw [m.turn_told.2, config_turn] at hrest
      rw [efforts]
      omega
    · exact h

/-! ### Calls for the next event -/

theorem isNews_statusEvent (m : Machine) : m.statusEvent.isNews = false := by
  unfold statusEvent
  split <;> rfl

theorem called_config (m : Machine) (clock : Clock) : (m.called clock).config = m.config :=
  wake_config _

theorem called_pending (m : Machine) (clock : Clock) : (m.called clock).pending = m.pending :=
  wake_pending _

theorem called_outputs (m : Machine) (clock : Clock) : (m.called clock).outputs = 0 := rfl

theorem Terse.called (h : m.Terse) (clock : Clock) : (m.called clock).Terse :=
  h.of_commands (wake_keeps (·.commands) (fun _ _ => rfl) _)

theorem quantum_told (h : m.pending = []) (clock : Clock) :
    ({ m with clock := clock } : Machine).wake.quantum.pending =
      ((m.turns clock).flatMap voice).foldl Event.hear [] := by
  obtain ⟨outputs, hquantum⟩ := quantum_called m clock
  rw [hquantum, turns_of_nil h]
  dsimp only
  rw [runFor_told, called_pending, h]

/-- How a call for the next event goes about its work. -/
structure Orderly (m : Machine) (clock : Clock) : Prop where
  /-- Nothing runs while something waits. -/
  waiting : m.pending ≠ [] →
    m.turns clock = [] ∧ (m.execute clock).2.toSnapshot = m.toSnapshot
  /-- Otherwise the turns follow each other, and they are all that happens. -/
  running : m.pending = [] →
    m.turns clock = List.iterate turn (m.called clock) (m.turns clock).length ∧
      (m.execute clock).2.toSnapshot =
        (turn^[(m.turns clock).length] (m.called clock)).toSnapshot
  /-- No turn is made while anything but text waits. -/
  texts : ∀ k ∈ m.turns clock, k.status = .running ∧ ∀ e ∈ k.pending, e.isPrint
  /-- The status is reported only if nothing waited and nothing waits. -/
  status : (m.execute clock).1.isNews = false → m.pending = [] ∧ (m.execute clock).2.pending = []
  /-- A turn runs at most one statement. -/
  cycles : (m.turns clock).length ≤ m.config.maxCycles
  /-- Only the last turn can exceed the budget for outputs. -/
  outputs : m.turns clock ≠ [] → efforts (m.turns clock).dropLast < m.config.maxOutputs

theorem status_tell (h : ∀ e ∈ m.pending, e.isNews) (hevent : m.tell.1.isNews = false) :
    m.tell.2.pending = [] := by
  unfold tell at hevent ⊢
  cases hpending : m.pending with
  | nil => exact hpending
  | cons e rest =>
    rw [hpending] at h hevent
    rw [h e List.mem_cons_self] at hevent
    cases hevent

theorem isNews_flatMap_voice (run : List Machine) : ∀ e ∈ run.flatMap voice, e.isNews := by
  intro e he
  obtain ⟨k, -, hk⟩ := List.mem_flatMap.mp he
  exact isNews_voice e hk

theorem orderly (h : ∀ e ∈ m.pending, e.isNews) (clock : Clock) : m.Orderly clock := by
  cases hpending : m.pending with
  | cons e rest =>
    have hturns := turns_of_cons hpending clock
    have hexecute := execute_of_cons hpending clock
    have hnews : e.isNews := h e (hpending ▸ List.mem_cons_self)
    refine ⟨fun _ => ⟨hturns, ?_⟩, fun hnil => ?_, ?_, ?_, ?_, fun hne => absurd hturns hne⟩
    · rw [hexecute]
    · rw [hpending] at hnil
      cases hnil
    · rw [hturns]
      exact List.forall_mem_nil _
    · intro hevent
      rw [hexecute, hnews] at hevent
      cases hevent
    · rw [hturns]
      exact Nat.zero_le _
  | nil =>
    have hturns := turns_of_nil hpending clock
    have hiterate := turning_eq_iterate m.config.maxCycles (m.called clock)
    have hcalled : (m.called clock).pending = [] := (called_pending m clock).trans hpending
    refine ⟨fun hne => absurd hpending hne, fun _ => ?_, ?_, ?_, ?_, ?_⟩
    · rw [execute_snapshot hpending, hturns]
      exact ⟨hiterate.1, congrArg (·.toSnapshot) hiterate.2⟩
    · rw [hturns]
      apply texts_of_mem_turning
      rw [hcalled]
      exact List.forall_mem_nil _
    · rw [execute_of_nil hpending]
      refine fun hevent => ⟨hpending, status_tell ?_ hevent⟩
      rw [quantum_told hpending]
      exact Event.forall_mem_foldl_hear (fun _ => rfl) (isNews_flatMap_voice _) (List.forall_mem_nil _)
    · rw [hturns]
      exact length_turning_le _ _
    · intro hne
      rw [hturns] at hne ⊢
      have hbound := effort_dropLast_lt hne
      rwa [called_config, called_outputs, Nat.zero_add] at hbound

theorem effort_turns_le (h : m.Terse) (clock : Clock) :
    efforts (m.turns clock) ≤ m.config.maxOutputs := by
  cases hpending : m.pending with
  | cons e rest =>
    rw [turns_of_cons hpending]
    exact Nat.zero_le _
  | nil =>
    rw [turns_of_nil hpending]
    have hidle : (m.called clock).outputs ≤ (m.called clock).config.maxOutputs := by
      rw [called_outputs]
      exact Nat.zero_le _
    have hbound := effort_turning_le m.config.maxCycles (h.called clock) hidle
    rwa [called_config, called_outputs, Nat.zero_add] at hbound

/-! ### What the host's own calls tell -/

/-- What entering a line tells: that it has no meaning, if it is to be run right away. -/
def entryVoice (m : Machine) (line : String) : List Event :=
  match m.status with
  | .input _ _ => []
  | _ =>
    let text := Text.trim (entry line)
    if text.isEmpty || (m.listing.placeNumbered? text).isSome then []
    else match (m.compile (String.ofList text) (m.resume.map (·.1))).1 with
      | .ok _ => []
      | .error e => [.error e]

/-- What an interrupt tells: where it was, if anything ran or waited. -/
def breakVoice (m : Machine) : List Event :=
  match m.status, m.code with
  | .stopped, _ => []
  | _, none => []
  | _, some block => [.error (breakError block m.pc)]

theorem runLine_pending (m : Machine) (line : String) : (m.runLine line).pending =
    m.pending ++ match (m.compile line (m.resume.map (·.1))).1 with
      | .ok _ => []
      | .error e => [.error e] := by
  have hpending := compile_pending m line (m.resume.map (·.1))
  unfold runLine
  cases hresult : m.compile line (m.resume.map (·.1)) with
  | mk r n =>
    rw [hresult] at hpending
    cases r with
    | ok block => exact hpending.trans (List.append_nil _).symm
    | error e => exact congrArg (· ++ [.error e]) hpending

theorem enter_told (m : Machine) (line : String) :
    (m.enter line).pending = (m.entryVoice line).foldl Event.hear m.pending := by
  unfold entryVoice
  split
  · rename_i hs
    rw [enter_of_input hs]
    rfl
  · rename_i hs
    rw [enter_of_not_input fun prompt targets h => hs prompt targets h]
    dsimp only
    by_cases hempty : (Text.trim (entry line)).isEmpty
    · rw [if_pos hempty, if_pos (by rw [hempty]; rfl)]
      rfl
    · rw [if_neg hempty]
      cases hplace : m.listing.placeNumbered? (Text.trim (entry line)) with
      | some listing =>
        rw [if_pos (by rw [Option.isSome_some, Bool.or_true])]
        rfl
      | none =>
        rw [if_neg (by simpa using hempty), runLine_pending]
        cases (m.compile (String.ofList (Text.trim (entry line))) (m.resume.map (·.1))).1 with
        | ok block => exact List.append_nil _
        | error e => rfl

theorem interrupt_told (m : Machine) :
    m.interrupt.pending = m.breakVoice.foldl Event.hear m.pending := by
  cases hcode : m.code with
  | none =>
    unfold breakVoice
    cases hs : m.status <;> simp only [interrupt, hs, hcode] <;> rfl
  | some block =>
    unfold breakVoice
    cases hs : m.status <;> simp only [interrupt, hs, hcode] <;> rfl

theorem isNews_entryVoice (m : Machine) (line : String) : ∀ e ∈ m.entryVoice line, e.isNews := by
  fun_cases entryVoice m line with
  | case4 _ _ _ e => exact List.forall_mem_singleton.mpr rfl
  | _ => exact List.forall_mem_nil _

theorem isNews_breakVoice (m : Machine) : ∀ e ∈ m.breakVoice, e.isNews := by
  unfold breakVoice
  split
  · exact List.forall_mem_nil _
  · exact List.forall_mem_nil _
  · exact List.forall_mem_singleton.mpr rfl

end Machine

theorem Machine.new_pending (config : Config) (random : Random) :
    (Machine.new config random).pending = [] := rfl

/-! ### Sessions -/

/-- The event of an answer, if it is about more than the machine's status. -/
def Reply.news? : Reply → Option Event
  | .event e => if e.isNews then some e else none
  | _ => none

theorem Reply.news?_of_isNews {e : Event} (he : e.isNews) : (Reply.event e).news? = some e :=
  if_pos he

theorem Reply.news?_statusEvent (m : Machine) : (Reply.event m.statusEvent).news? = none :=
  if_neg (by rw [m.isNews_statusEvent]; nofun)

/-- Hosts whose commands print at most once each time. -/
def Extensions.terse : Extensions where
  function _ _ := True
  command _ c := c.action.Terse

namespace Session

variable {ext : Extensions} {s : Session} {kept : List Snapshot}

/-- What there is to tell of something that the host does. -/
def voiced (s : Session) (clock : Clock) : HostOp → List Event
  | .execute => (s.machine.turns clock).flatMap Machine.voice
  | .enter line => s.machine.entryVoice line
  | .interrupt => s.machine.breakVoice
  | _ => []

/-- What there is to tell of things that the host does, one after another. -/
def produced (s : Session) : List (HostOp × Clock) → List Event
  | [] => []
  | (op, clock) :: ops => s.voiced clock op ++ (s.serve clock op).2.produced ops

theorem isNews_voiced (s : Session) (clock : Clock) (op : HostOp) :
    ∀ e ∈ s.voiced clock op, e.isNews := by
  cases op with
  | execute => exact Machine.isNews_flatMap_voice _
  | enter line => exact s.machine.isNews_entryVoice line
  | interrupt => exact s.machine.isNews_breakVoice
  | _ => exact List.forall_mem_nil _

/-- The events of an answer and those that wait after it, when some more were told to a host before
which some waited: they are all these, in order. -/
structure Delivers (waiting events : List Event) (r : Reply × Session) : Prop where
  heard : ∀ told : List Event, (r.1.news?.toList ++ r.2.machine.pending).foldl Event.hear told =
    (waiting ++ events).foldl Event.hear told
  news : ∀ e ∈ r.2.machine.pending, e.isNews

theorem Delivers.of_told {waiting events : List Event} {r : Reply × Session}
    (hwaiting : ∀ e ∈ waiting, e.isNews) (hevents : ∀ e ∈ events, e.isNews)
    (hreply : r.1.news? = none) (htold : r.2.machine.pending = events.foldl Event.hear waiting) :
    Delivers waiting events r := by
  refine ⟨fun told => ?_, ?_⟩
  · rw [hreply, htold, Option.toList_none, List.nil_append, Event.foldl_hear_foldl_hear,
      List.foldl_append]
  · rw [htold]
    exact Event.forall_mem_foldl_hear (fun _ => rfl) hevents hwaiting

theorem Delivers.of_tell {m : Machine} {events : List Event} {held : List Value}
    (hevents : ∀ e ∈ events, e.isNews) (htold : m.pending = events.foldl Event.hear []) :
    Delivers [] events (.event m.tell.1, ⟨m.tell.2, held⟩) := by
  have hnews : ∀ e ∈ m.pending, e.isNews := by
    rw [htold]
    exact Event.forall_mem_foldl_hear (fun _ => rfl) hevents (List.forall_mem_nil _)
  have hheard (told : List Event) : m.pending.foldl Event.hear told =
      ([] ++ events).foldl Event.hear told := by
    rw [htold, Event.foldl_hear_foldl_hear]
    rfl
  unfold Machine.tell
  cases hpending : m.pending with
  | nil =>
    refine ⟨fun told => ?_, ?_⟩
    · rw [Reply.news?_statusEvent, ← hheard]
      rfl
    · exact hnews
  | cons e rest =>
    rw [hpending] at hnews hheard
    obtain ⟨he, hrest⟩ := List.forall_mem_cons.mp hnews
    refine ⟨fun told => ?_, hrest⟩
    rw [Reply.news?_of_isNews he, ← hheard]
    rfl

theorem serve_delivers (h : ∀ e ∈ s.machine.pending, e.isNews) (clock : Clock) (op : HostOp) :
    Delivers s.machine.pending (s.voiced clock op) (s.serve clock op) := by
  have htold := Delivers.of_told (r := s.serve clock op) h (s.isNews_voiced clock op)
  cases op with
  | load source =>
    refine htold rfl ?_
    unfold serve
    dsimp only
    rw [Machine.load, Machine.compileListing, Machine.compile_pending]
    rfl
  | enter line => exact htold rfl (s.machine.enter_told line)
  | interrupt => exact htold rfl s.machine.interrupt_told
  | store name value =>
    unfold serve at htold ⊢
    dsimp only at htold ⊢
    split at htold
    · rename_i hsupply
      obtain ⟨heap, hheap⟩ := supply_machine hsupply
      exact htold rfl (congrArg (·.pending) hheap)
    · exact htold rfl rfl
  | run => exact htold rfl rfl
  | setListing => exact htold rfl rfl
  | fetch => exact htold rfl rfl
  | execute =>
    cases hpending : s.machine.pending with
    | cons e rest =>
      rw [hpending] at h
      obtain ⟨he, hrest⟩ := List.forall_mem_cons.mp h
      rw [serve, Machine.execute_of_cons hpending, voiced, Machine.turns_of_cons hpending]
      refine ⟨fun told => ?_, hrest⟩
      rw [Reply.news?_of_isNews he, List.flatMap_nil, List.append_nil]
      rfl
    | nil =>
      rw [serve, Machine.execute_of_nil hpending]
      exact .of_tell (s.isNews_voiced clock .execute) (Machine.quantum_told hpending clock)

/-- Whatever the host does, it is told everything that there is to tell, in order, up to what still
waits. -/
theorem serveAll_delivers (h : ∀ e ∈ s.machine.pending, e.isNews) (ops : List (HostOp × Clock))
    (told : List Event) : ((s.serveAll ops).1.filterMap Reply.news? ++
        (s.serveAll ops).2.machine.pending).foldl Event.hear told =
      (s.machine.pending ++ s.produced ops).foldl Event.hear told := by
  induction ops generalizing s told with
  | nil => rw [produced, List.append_nil]; rfl
  | cons o ops ih =>
    obtain ⟨op, clock⟩ := o
    have hserved := serve_delivers h clock op
    have hstep := hserved.heard told
    rw [serveAll, produced]
    dsimp only
    generalize s.serve clock op = r at hserved hstep ⊢
    have hrest := ih hserved.news (r.1.news?.toList.foldl Event.hear told)
    calc ((r.1 :: (r.2.serveAll ops).1).filterMap Reply.news? ++
          (r.2.serveAll ops).2.machine.pending).foldl Event.hear told
        = ((r.2.serveAll ops).1.filterMap Reply.news? ++
            (r.2.serveAll ops).2.machine.pending).foldl Event.hear
              (r.1.news?.toList.foldl Event.hear told) := by
          cases hnews : r.1.news? <;> simp [hnews]
      _ = (r.2.produced ops).foldl Event.hear
            ((r.1.news?.toList ++ r.2.machine.pending).foldl Event.hear told) := by
          rw [hrest, List.foldl_append, List.foldl_append]
      _ = (s.machine.pending ++ (s.voiced clock op ++ r.2.produced ops)).foldl Event.hear told := by
          rw [hstep, ← List.append_assoc]
          exact List.foldl_append.symm

/-- Whatever a host did, no status waits to be delivered: it is looked up when it is asked for. -/
theorem Reachable.news (h : Reachable ext s kept) : ∀ e ∈ s.machine.pending, e.isNews := by
  induction h with
  | new config random =>
    rw [Machine.new_pending]
    exact List.forall_mem_nil _
  | serve _ clock op ih => exact (serve_delivers ih clock op).news
  | print _ text ih => exact Event.forall_mem_appendText (fun _ => rfl) ih text
  | defineConstant _ name hv ih =>
    obtain ⟨heap, hheap⟩ := supply_machine hv
    dsimp only
    rw [hheap]
    exact ih
  | defineFunction _ _ ih => exact ih
  | defineCommand _ _ ih => exact ih
  | snapshot _ ih => exact ih
  | restore _ _ ih => exact List.forall_mem_nil _

theorem Reachable.terse (h : Reachable ext s kept)
    (hext : ∀ name c, ext.command name c → c.action.Terse) : s.machine.Terse := by
  induction h with
  | new config random =>
    intro name c hc
    obtain ⟨b, hb⟩ := (Machine.proper_new config random).commands name c hc
    rw [hb]
    trivial
  | serve _ clock op ih => exact ih.of_commands (congrArg (·.2.1) (serve_fixtures _ clock op))
  | print _ text ih => exact ih
  | defineConstant _ name hv ih =>
    exact ih.of_commands (congrArg (·.2.1) (supply_fixtures hv))
  | defineFunction _ _ ih => exact ih
  | defineCommand _ hc ih =>
    intro name d hd
    change (Std.TreeMap.insert _ _ _)[name]? = some d at hd
    rw [Std.TreeMap.getElem?_insert] at hd
    split at hd
    · cases hd
      exact hext _ _ hc
    · exact ih name d hd
  | snapshot _ ih => exact ih
  | restore _ _ ih => exact ih

/-- Events are delivered once, in order, and before anything later happens: what the host is told,
with what waits in the end, is what there was to tell. Every call for the next event is orderly, and
it makes no more outputs than it may if the commands of the host, which print and store variables and
do nothing else, print at most once each time. -/
theorem events_delivered_in_order (h : Reachable ext s kept) :
    (∀ ops : List (HostOp × Clock),
      Event.heard ((s.serveAll ops).1.filterMap Reply.news? ++ (s.serveAll ops).2.machine.pending) =
        Event.heard (s.machine.pending ++ s.produced ops)) ∧
    (∀ e ∈ s.machine.pending, e.isNews) ∧
    (∀ clock, s.machine.Orderly clock) ∧
    ((∀ name c, ext.command name c → c.action.Terse) → ∀ clock,
      Machine.efforts (s.machine.turns clock) ≤ s.machine.config.maxOutputs) :=
  ⟨fun ops => serveAll_delivers h.news ops [], h.news, Machine.orderly h.news,
    fun hext => Machine.effort_turns_le (h.terse hext)⟩

/-- A program that prints, clears the screen and fails, on small budgets. -/
def showing : Session :=
  (serveAll ⟨Machine.new { maxCycles := 3, maxOutputs := 2 } (.ofSeed 7), []⟩
    [(.load "print 1\nprint 2\ncls\nprint 3\nbeep", {}), (.enter "run", {})]).2

theorem reachable_showing : Reachable .terse showing [] :=
  .serve (.serve (.new _ _) _ _) _ _

/-- A line without meaning is reported between the texts of the program, before the screen is
cleared, and the last error waits in the end. -/
theorem events_delivered_in_order_showing : Reachable .terse showing [] ∧
    (let ops : List (HostOp × Clock) := [(.execute, {}), (.enter "print (", {}), (.execute, {}),
      (.execute, {}), (.execute, {})]
    let told := (showing.serveAll ops).1.filterMap Reply.news?
    let waiting := (showing.serveAll ops).2.machine.pending
    told = [.print "1\n2\n",
        .error ⟨.malformed, "EXPECTED EXPRESSION", some ⟨1, 8⟩, some "print ("⟩,
        .cls, .print "3\n"] ∧
      waiting.length = 1 ∧
      Event.heard (told ++ waiting) = Event.heard (showing.machine.pending ++ showing.produced ops)) ∧
    (showing.machine.turns {}).length = 3 ∧ showing.machine.Orderly {} ∧
    Machine.efforts (showing.machine.turns {}) ≤ showing.machine.config.maxOutputs := by
  obtain ⟨htold, -, horderly, heffort⟩ := events_delivered_in_order reachable_showing
  refine ⟨reachable_showing, ⟨?_, ?_, htold _⟩, ?_, horderly _, heffort (fun _ _ hc => hc) _⟩
  · decide +kernel
  · decide +kernel
  · decide +kernel

end Session

end LineBasic
