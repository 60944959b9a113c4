import LineBasic.Proofs.Hosts

/-!
# Polling a program until it halts

A host that only polls a machine is told texts, signs of life and pauses that are over, until it is
told something else: the program has halted. Where the calls cut the program makes no difference to
what the host is told up to then, nor to the state in which it finds the machine, as long as the clock
stands still or the program does not look at it.

As with budgets, runs are compared with a course that has no calls. Here it follows pauses too, and it
ends with the first event that halts.
-/

namespace LineBasic

set_option autoImplicit false

namespace Event

/-- A pause that is over is a mere sign of life. -/
def quieten : Event → Event
  | sleep 0 => running
  | e => e

/-- What events tell when pauses that are over are dropped, too. -/
def gist (events : List Event) : List Event :=
  heard (events.map quieten)

/-- Whether a host that waits for something to happen goes on waiting no longer. -/
def halts (e : Event) : Bool :=
  e.quieten.isMark

theorem quieten_of_isPrint {e : Event} (he : e.isPrint) : e.quieten = e := by
  cases e with
  | print s => rfl
  | _ => cases he

theorem halts_of_isPrint {e : Event} (he : e.isPrint) : e.halts = false := by
  rw [halts, quieten_of_isPrint he]
  cases e with
  | print s => rfl
  | _ => cases he

theorem isPrint_of_quieten {e : Event} {s : String} (he : e.quieten = print s) : e = print s := by
  unfold quieten at he
  split at he
  · cases he
  · exact he

theorem map_quieten_appendText (events : List Event) (s : String) :
    (appendText events s).map quieten = appendText (events.map quieten) s := by
  fun_induction appendText events s with
  | case1 s => rfl
  | case2 t s => rfl
  | case3 e es s hne ih =>
    have hne' : ∀ t, e.quieten = print t → es.map quieten = [] → False := by
      intro t he hes
      exact hne t (isPrint_of_quieten he) (List.map_eq_nil_iff.mp hes)
    rw [List.map_cons, List.map_cons, ih, appendText.eq_3 _ _ _ hne']

theorem map_quieten_texts (texts : List String) (events : List Event) :
    (texts.foldl appendText events).map quieten = texts.foldl appendText (events.map quieten) := by
  induction texts generalizing events with
  | nil => rfl
  | cons s ss ih => rw [List.foldl_cons, ih, map_quieten_appendText, List.foldl_cons]

theorem gist_append (events more : List Event) :
    gist (events ++ more) = (more.map quieten).foldl hear (gist events) := by
  rw [gist, List.map_append, heard_append]
  rfl

theorem gist_append_congr {events events' : List Event} (h : gist events = gist events')
    (more : List Event) : gist (events ++ more) = gist (events' ++ more) := by
  rw [gist_append, gist_append, h]

/-- It makes no difference to the host whether an utterance joins what waits or comes after it. -/
theorem gist_append_extend (u : Utterance) (told pending : List Event) :
    gist (told ++ u.extend pending) = gist (told ++ pending ++ u.extend []) := by
  rw [gist_append, gist_append, gist_append, Utterance.extend, Utterance.extend, List.map_append,
    List.map_append, List.foldl_append, List.foldl_append, map_quieten_texts, map_quieten_texts,
    Utterance.foldl_hear_texts, Utterance.foldl_hear_texts]
  rfl

theorem gist_append_quiet {e : Event} (he : e.quieten = running) (told : List Event) :
    gist (told ++ [e]) = gist told := by
  rw [gist_append, List.map_singleton, he]
  rfl

end Event

theorem Utterance.any_halts_extend (u : Utterance) {pending : List Event}
    (h : ∀ e ∈ pending, e.isPrint) : (u.extend pending).any Event.halts = u.mark.any Event.halts := by
  have htexts : (u.texts.foldl Event.appendText pending).any Event.halts = false := by
    rw [List.any_eq_false]
    intro e he
    rw [Event.halts_of_isPrint (isPrint_of_mem_texts u.texts h e he)]
    exact Bool.false_ne_true
  rw [extend, List.any_append, htexts, Bool.false_or]
  cases u.mark with
  | none => rfl
  | some e => exact Bool.or_false _

theorem Utterance.isPrint_of_mem_dropLast_extend (u : Utterance) {pending : List Event}
    (h : ∀ e ∈ pending, e.isPrint) : ∀ e ∈ (u.extend pending).dropLast, e.isPrint := by
  have htexts := isPrint_of_mem_texts u.texts h
  intro e he
  unfold extend at he
  cases hmark : u.mark with
  | none =>
    rw [hmark, Option.toList_none, List.append_nil] at he
    exact htexts e (List.mem_of_mem_dropLast he)
  | some mark =>
    rw [hmark, Option.toList_some, List.dropLast_concat] at he
    exact htexts e he

namespace Machine

theorem Moves.clock {f : Machine → Machine} (hf : Moves f) (m : Machine) :
    (f m).clock = m.clock := by
  obtain ⟨g, hfixed, hg⟩ := hf
  rw [hg]
  exact congrArg Fixtures.clock (hfixed (Aspect.outer.see m))

theorem Moves.config {f : Machine → Machine} (hf : Moves f) (m : Machine) :
    (f m).config = m.config :=
  congrArg Prod.fst (hf.fixtures m)

theorem atClock_self {m : Machine} {clock : Clock} (h : m.clock = clock) :
    ({ m with clock := clock } : Machine) = m := by
  rw [← h]

theorem runFor_clock (cycles : Nat) (m : Machine) : (runFor cycles m).clock = m.clock := by
  induction cycles generalizing m with
  | zero => rfl
  | succ cycles ih =>
    rw [runFor_succ]
    split
    · rw [ih, moves_turn.clock]
    · rfl

theorem wake_cases (m : Machine) : m.wake = m ∨ m.wake = { m with status := .running } := by
  unfold wake
  split
  · split
    · exact .inl rfl
    · exact .inr rfl
  · exact .inl rfl

theorem wake_keeps {α : Type} (f : Machine → α)
    (hf : ∀ (m : Machine) (status : Status), f { m with status := status } = f m) (m : Machine) :
    f m.wake = f m := by
  rcases m.wake_cases with hwake | hwake
  · rw [hwake]
  · rw [hwake]
    exact hf m .running

theorem wake_pending (m : Machine) : m.wake.pending = m.pending :=
  wake_keeps (·.pending) (fun _ _ => rfl) m

theorem wake_clock (m : Machine) : m.wake.clock = m.clock :=
  wake_keeps (·.clock) (fun _ _ => rfl) m

theorem wake_config (m : Machine) : m.wake.config = m.config :=
  wake_keeps (·.config) (fun _ _ => rfl) m

/-- Machines of one scene wake up together, unless one of them sleeps at another time. -/
theorem wake_scene {m n : Machine} (h : m.scene = n.scene)
    (hclock : m.clock = n.clock ∨ ∀ wake, n.status ≠ .asleep wake) :
    m.wake.scene = n.wake.scene := by
  have hstatus := status_of_scene h
  by_cases hasleep : ∃ wake, n.status = .asleep wake
  · obtain ⟨wake, hn⟩ := hasleep
    rcases hclock with hclock | hawake
    · rw [wake_of_asleep hn, wake_of_asleep (hstatus.trans hn), hclock]
      split
      · exact h
      · exact congrArg (fun v : Sight × Place => (v.1, { v.2 with status := .running })) h
    · exact absurd hn (hawake wake)
  · have hn : ∀ wake, n.status ≠ .asleep wake := fun wake hn => hasleep ⟨wake, hn⟩
    rw [wake_of_not_asleep hn, wake_of_not_asleep (hstatus ▸ hn), h]

theorem statusEvent_of_scene {m n : Machine} (h : m.scene = n.scene)
    (hclock : m.clock = n.clock ∨ ∀ wake, n.status ≠ .asleep wake) :
    m.statusEvent = n.statusEvent := by
  have hstatus := status_of_scene h
  rcases hclock with hclock | hawake
  · rw [statusEvent, statusEvent, hstatus, hclock]
  · exact statusEvent_of_status hstatus hawake

/-- What a machine tells of its status halts the host, unless the machine goes on at the next call. -/
theorem halts_or_goes (m : Machine) :
    (m.statusEvent.halts ∧ m.wake = m ∧ m.status ≠ .running) ∨
      (m.statusEvent.quieten = .running ∧ (m.wake ≠ m ∨ m.status = .running)) := by
  cases hs : m.status with
  | running =>
    refine .inr ⟨?_, .inr rfl⟩
    rw [statusEvent, hs]
    rfl
  | stopped =>
    refine .inl ⟨?_, wake_of_not_asleep (by simp [hs]), by simp⟩
    rw [statusEvent, hs]
    rfl
  | input prompt targets =>
    refine .inl ⟨?_, wake_of_not_asleep (by simp [hs]), by simp⟩
    rw [statusEvent, hs]
    rfl
  | asleep wake =>
    have hevent : m.statusEvent = .sleep (wake - m.clock.nanos) := by
      rw [statusEvent, hs]
    by_cases htime : m.clock.nanos < wake
    · refine .inl ⟨?_, ?_, by simp⟩
      · obtain ⟨n, hn⟩ := Nat.exists_eq_add_of_lt htime
        rw [hevent, show wake - m.clock.nanos = n + 1 by omega]
        rfl
      · rw [wake_of_asleep hs, if_pos htime]
    · refine .inr ⟨?_, .inl fun hwake => ?_⟩
      · rw [hevent, Nat.sub_eq_zero_of_le (Nat.le_of_not_lt htime)]
        rfl
      · have hstatus : m.wake.status = m.status := by rw [hwake]
        rw [wake_of_asleep hs, if_neg htime, hs] at hstatus
        cases hstatus

/-! ### Polls -/

/-- A machine that has told everything. -/
def quiet (m : Machine) : Machine :=
  { m with outputs := 0, pending := [] }

/-- A machine in the hands of a host that polls it until it halts. -/
structure Polled where
  machine : Machine
  told : List Event
  halted : Bool

namespace Polled

def receive (d : Polled) (r : Event × Machine) : Polled :=
  ⟨r.2, d.told ++ [r.1], r.1.halts⟩

def poll (d : Polled) (clock : Clock) : Polled :=
  if d.halted then d else d.receive (d.machine.execute clock)

/-- One turn of the program, or what it halts with. -/
def advance (d : Polled) : Polled :=
  if d.halted then d
  else
    let m := d.machine.wake
    if m.status = .running then
      ⟨m.turn.quiet, d.told ++ m.turn.pending, m.turn.pending.any Event.halts⟩
    else ⟨m, d.told ++ [m.statusEvent], true⟩

theorem advance_of_halted {d : Polled} (h : d.halted) : d.advance = d := if_pos h

theorem advance_of_running {d : Polled} (h : d.halted = false)
    (hs : d.machine.wake.status = .running) : d.advance = ⟨d.machine.wake.turn.quiet,
      d.told ++ d.machine.wake.turn.pending, d.machine.wake.turn.pending.any Event.halts⟩ := by
  unfold advance
  rw [h, if_neg Bool.false_ne_true]
  exact if_pos hs

theorem advance_of_not_running {d : Polled} (h : d.halted = false)
    (hs : d.machine.wake.status ≠ .running) :
    d.advance = ⟨d.machine.wake, d.told ++ [d.machine.wake.statusEvent], true⟩ := by
  unfold advance
  rw [h, if_neg Bool.false_ne_true]
  exact if_neg hs

end Polled

/-- What the host has at the end of a call that has so many statements left, and after so many more
calls. -/
def polled (clocks : Nat → Clock) (cycles : Nat) (m : Machine) : Nat → Polled
  | 0 => Polled.receive ⟨m, [], false⟩ (runFor cycles m).tell
  | n + 1 => (polled clocks cycles m n).poll (clocks n)

/-- The course of a program up to where it halts, without calls. -/
def uncut (m : Machine) : Nat → Polled
  | 0 => ⟨m.quiet, [], false⟩
  | n + 1 => (uncut m n).advance

/-- A host that polls at these times does not disturb the program: it stops the clock, or the program
neither pauses nor asks the time. -/
def Steady (m : Machine) (clock : Clock) : Prop :=
  clock = m.clock ∨ ∀ i, (uncut m i).machine.Timeless

theorem uncut_fixed (m : Machine) (i : Nat) : (uncut m i).machine.pending = [] ∧
    (uncut m i).machine.clock = m.clock ∧ (uncut m i).machine.config = m.config := by
  induction i with
  | zero => exact ⟨rfl, rfl, rfl⟩
  | succ i ih =>
    have hwake : (uncut m i).machine.wake.pending = [] ∧
        (uncut m i).machine.wake.clock = m.clock ∧ (uncut m i).machine.wake.config = m.config := by
      rw [wake_pending, wake_clock, wake_config]
      exact ih
    change (uncut m i).advance.machine.pending = [] ∧ (uncut m i).advance.machine.clock = m.clock ∧
      (uncut m i).advance.machine.config = m.config
    cases hhalted : (uncut m i).halted with
    | true =>
      rw [Polled.advance_of_halted hhalted]
      exact ih
    | false =>
      by_cases hs : (uncut m i).machine.wake.status = .running
      · rw [Polled.advance_of_running hhalted hs]
        exact ⟨rfl, (moves_turn.clock _).trans hwake.2.1, (moves_turn.config _).trans hwake.2.2⟩
      · rw [Polled.advance_of_not_running hhalted hs]
        exact hwake

theorem uncut_extends (m : Machine) {i j : Nat} (hij : i ≤ j) :
    (∃ more, (uncut m j).told = (uncut m i).told ++ more) ∧
      ((uncut m i).halted → uncut m j = uncut m i) := by
  induction hij with
  | refl => exact ⟨⟨[], (List.append_nil _).symm⟩, fun _ => rfl⟩
  | @step j _ ih =>
    obtain ⟨⟨more, hmore⟩, hstays⟩ := ih
    constructor
    · change ∃ more, (uncut m j).advance.told = _
      cases hhalted : (uncut m j).halted with
      | true =>
        rw [Polled.advance_of_halted hhalted]
        exact ⟨more, hmore⟩
      | false =>
        by_cases hs : (uncut m j).machine.wake.status = .running
        · rw [Polled.advance_of_running hhalted hs, hmore]
          exact ⟨_, List.append_assoc _ _ _⟩
        · rw [Polled.advance_of_not_running hhalted hs, hmore]
          exact ⟨_, List.append_assoc _ _ _⟩
    · intro hhalted
      have hsame := hstays hhalted
      change (uncut m j).advance = uncut m i
      rw [hsame, Polled.advance_of_halted hhalted]

/-! ### Where a polled machine stands in the course -/

/-- A polled machine is at a point of the course, except that the last of what was told there may still
wait. -/
structure Polled.At (d p : Polled) (before : List Event) : Prop where
  scene : d.machine.scene = p.machine.scene
  config : d.machine.config = p.machine.config
  told : Event.gist (d.told ++ d.machine.pending) = Event.gist (before ++ p.told)
  texts : ∀ e ∈ d.machine.pending.dropLast, e.isPrint
  halted : p.halted = (d.halted || d.machine.pending.any Event.halts)
  rest : d.halted → d.machine.pending = []

namespace Polled.At

variable {d p : Polled} {before : List Event}

theorem status (h : At d p before) : d.machine.status = p.machine.status :=
  status_of_scene h.scene

theorem deliver (h : At d p before) (hd : d.halted = false) {e : Event} {rest : List Event}
    (hpending : d.machine.pending = e :: rest) (clock : Clock) :
    At (d.receive (e, { d.machine with clock := clock, pending := rest })) p before := by
  have htold := h.told
  have htexts := h.texts
  have hhalted := h.halted
  rw [hpending] at htold htexts hhalted
  refine ⟨h.scene, h.config, ?_, ?_, ?_, ?_⟩
  · rw [← htold]
    change Event.gist (d.told ++ [e] ++ rest) = _
    rw [List.append_assoc]
    rfl
  · intro f hf
    apply htexts
    cases rest with
    | nil => cases hf
    | cons r rest => exact List.mem_cons_of_mem e hf
  · rw [hhalted, hd, Bool.false_or]
    rfl
  · intro he
    cases rest with
    | nil => rfl
    | cons r rest =>
      have hprint := htexts e List.mem_cons_self
      rw [show (d.receive (e, { d.machine with clock := clock, pending := r :: rest })).halted =
        e.halts from rfl, Event.halts_of_isPrint hprint] at he
      cases he

theorem live (h : At d p before) (hd : d.halted = false) (hpending : d.machine.pending = [])
    {e : Event} (he : e.quieten = .running) : At (d.receive (e, d.machine)) p before := by
  have hhalts : e.halts = false := by
    rw [Event.halts, he]
    rfl
  refine ⟨h.scene, h.config, ?_, h.texts, ?_, fun _ => hpending⟩
  · rw [← h.told, hpending, List.append_nil]
    change Event.gist (d.told ++ [e] ++ d.machine.pending) = _
    rw [hpending, List.append_nil, Event.gist_append_quiet he]
  · rw [h.halted, hd]
    change _ = (e.halts || d.machine.pending.any Event.halts)
    rw [hhalts]

theorem halt (h : At d p before) (hd : d.halted = false) (hpending : d.machine.pending = [])
    (hawake : d.machine.wake = d.machine)
    (hs : d.machine.status ≠ .running) (hhalts : d.machine.statusEvent.halts)
    (hclock : d.machine.clock = p.machine.clock ∨ p.machine.Timeless) :
    At (d.receive (d.machine.statusEvent, d.machine)) p.advance before := by
  have hp : p.halted = false := by
    rw [h.halted, hd, hpending]
    rfl
  have hscene : d.machine.scene = p.machine.wake.scene := by
    rw [← hawake]
    exact wake_scene h.scene (hclock.imp_right And.left)
  have hevent : d.machine.statusEvent = p.machine.wake.statusEvent := by
    apply statusEvent_of_scene hscene
    rcases p.machine.wake_cases with hwake | hwake
    · rw [hwake]
      exact hclock.imp_right And.left
    · have hstatus := status_of_scene hscene
      rw [hwake] at hstatus
      exact absurd hstatus hs
  rw [Polled.advance_of_not_running hp (status_of_scene hscene ▸ hs), ← hevent]
  refine ⟨hscene, ?_, ?_, h.texts, ?_, fun _ => hpending⟩
  · exact h.config.trans p.machine.wake_config.symm
  · have htold := h.told
    rw [hpending, List.append_nil] at htold
    change Event.gist (d.told ++ [d.machine.statusEvent] ++ d.machine.pending) = _
    rw [hpending, List.append_nil, ← List.append_assoc]
    exact Event.gist_append_congr htold _
  · change true = (d.machine.statusEvent.halts || _)
    rw [hhalts]
    rfl

end Polled.At

theorem Polled.At.turn {p : Polled} {before told : List Event} {m : Machine}
    (hscene : m.scene = p.machine.wake.scene) (hconfig : m.config = p.machine.config)
    (htold : Event.gist (told ++ m.pending) = Event.gist (before ++ p.told))
    (htexts : ∀ e ∈ m.pending, e.isPrint) (hrunning : m.status = .running)
    (hp : p.halted = false) (hidle : p.machine.pending = [])
    (hclock : m.clock = p.machine.clock ∨ p.machine.Timeless) :
    At ⟨m.turn, told, false⟩ p.advance before := by
  have hs : p.machine.wake.status = .running := (status_of_scene hscene).symm.trans hrunning
  have htime : ({ p.machine.wake with clock := m.clock } : Machine).turn =
      { p.machine.wake.turn with clock := m.clock } := by
    rcases hclock with hclock | htime
    · have hturn : p.machine.wake.turn.clock = m.clock := by
        rw [moves_turn.clock, wake_clock, hclock]
      have hsame : p.machine.wake.clock = m.clock := p.machine.wake_clock.trans hclock.symm
      rw [atClock_self hsame, atClock_self hturn]
    · have hself : p.machine.wake = p.machine := wake_of_not_asleep htime.1
      rw [hself] at hs ⊢
      exact htime.2 hidle hs m.clock
  obtain ⟨hturned, u, hm, hn⟩ := moves_turn.follow hscene htime
  rw [wake_pending, hidle] at hn
  rw [Polled.advance_of_running hp hs]
  refine ⟨hturned, ?_, ?_, ?_, ?_, nofun⟩
  · exact (moves_turn.config m).trans (hconfig.trans (p.machine.wake_config.symm.trans
      (moves_turn.config p.machine.wake).symm))
  · change Event.gist (told ++ m.turn.pending) = Event.gist (before ++ (p.told ++ _))
    rw [hm, hn, Event.gist_append_extend, ← List.append_assoc]
    exact Event.gist_append_congr htold _
  · change ∀ e ∈ m.turn.pending.dropLast, e.isPrint
    rw [hm]
    exact u.isPrint_of_mem_dropLast_extend htexts
  · change p.machine.wake.turn.pending.any Event.halts = (false || m.turn.pending.any Event.halts)
    rw [hm, hn, Bool.false_or, u.any_halts_extend htexts,
      u.any_halts_extend (List.forall_mem_nil (Event.isPrint · = true))]

section Runs

variable {start : Machine} {before : List Event} {d : Polled} {i : Nat}

theorem Steady.at {clock : Clock} (h : Steady start clock) (i : Nat) :
    clock = (uncut start i).machine.clock ∨ (uncut start i).machine.Timeless := by
  rw [(uncut_fixed start i).2.1]
  exact h.imp_right fun htime => htime i

theorem texts_of_mayStep {m : Machine} (hmay : m.mayStep)
    (htexts : ∀ e ∈ m.pending.dropLast, e.isPrint) :
    m.status = .running ∧ ∀ e ∈ m.pending, e.isPrint := by
  simp only [mayStep, Bool.and_eq_true, beq_iff_eq] at hmay
  obtain ⟨⟨hrunning, -⟩, hlast⟩ := hmay
  refine ⟨hrunning, fun e he => ?_⟩
  have hne : m.pending ≠ [] := List.ne_nil_of_mem he
  rw [← List.dropLast_append_getLast hne, List.mem_append, List.mem_singleton] at he
  rcases he with he | rfl
  · exact htexts e he
  · rw [List.getLast?_eq_some_getLast hne] at hlast
    exact hlast

/-- Running for a while takes a polled machine along the course. -/
theorem Polled.At.runFor (cycles : Nat) (h : d.At (uncut start i) before) (hd : d.halted = false)
    (hsteady : Steady start d.machine.clock) :
    ∃ j, i ≤ j ∧
      Polled.At { d with machine := Machine.runFor cycles d.machine } (uncut start j) before := by
  induction cycles generalizing d i with
  | zero => exact ⟨i, Nat.le_refl i, h⟩
  | succ cycles ih =>
    rw [runFor_succ]
    by_cases hmay : d.machine.mayStep
    · rw [if_pos hmay]
      obtain ⟨hrunning, htexts⟩ := texts_of_mayStep hmay h.texts
      have hs : (uncut start i).machine.status = .running := h.status ▸ hrunning
      have hwake : (uncut start i).machine.wake = (uncut start i).machine := by
        apply wake_of_not_asleep
        rw [hs]
        exact nofun
      have hp : (uncut start i).halted = false := by
        rw [h.halted, hd, Bool.false_or, List.any_eq_false]
        intro e he
        rw [Event.halts_of_isPrint (htexts e he)]
        exact Bool.false_ne_true
      have hturn : Polled.At ⟨d.machine.turn, d.told, false⟩ (uncut start (i + 1)) before := by
        apply Polled.At.turn _ h.config h.told htexts hrunning hp (uncut_fixed start i).1
          (hsteady.at i)
        rw [hwake, h.scene]
      have hclock : Steady start d.machine.turn.clock := by
        rw [moves_turn.clock]
        exact hsteady
      obtain ⟨j, hij, hat⟩ := ih hturn rfl hclock
      rw [hd]
      exact ⟨j, Nat.le_of_succ_le hij, hat⟩
    · rw [if_neg hmay]
      exact ⟨i, Nat.le_refl i, h⟩

theorem Polled.At.tell (h : d.At (uncut start i) before) (hd : d.halted = false)
    (hsteady : Steady start d.machine.clock) :
    ∃ j, i ≤ j ∧ (d.receive d.machine.tell).At (uncut start j) before ∧
      (d.machine.pending = [] → d.machine.wake = d.machine → d.machine.status ≠ .running → i < j) := by
  cases hpending : d.machine.pending with
  | cons e rest =>
    have htell : d.machine.tell = (e, { d.machine with pending := rest }) := by
      simp only [Machine.tell, hpending]
    rw [htell]
    exact ⟨i, Nat.le_refl i, h.deliver hd hpending d.machine.clock, by simp⟩
  | nil =>
    have htell : d.machine.tell = (d.machine.statusEvent, d.machine) := by
      simp only [Machine.tell, hpending]
    rw [htell]
    rcases d.machine.halts_or_goes with ⟨hhalts, hawake, hs⟩ | ⟨he, hgoes⟩
    · exact ⟨i + 1, Nat.le_succ i, h.halt hd hpending hawake hs hhalts (hsteady.at i),
        fun _ _ _ => Nat.lt_succ_self i⟩
    · refine ⟨i, Nat.le_refl i, h.live hd hpending he, fun _ hawake hs => ?_⟩
      rcases hgoes with hgoes | hgoes
      · exact absurd hawake hgoes
      · exact absurd hgoes hs

variable (hcycles : 0 < start.config.maxCycles) (houtputs : 0 < start.config.maxOutputs)
include hcycles houtputs

/-- A call of a machine that has told everything gets on. -/
theorem Polled.At.poll (h : d.At (uncut start i) before) (hd : d.halted = false)
    (hpending : d.machine.pending = []) {clock : Clock} (hsteady : Steady start clock) :
    ∃ j, i < j ∧ (d.poll clock).At (uncut start j) before := by
  let m : Machine := { d.machine with clock := clock }
  have hpoll : d.poll clock = d.receive m.wake.quantum.tell := by
    rw [Polled.poll, hd, if_neg Bool.false_ne_true, execute_of_nil hpending]
  have hconfig : m.config = start.config := h.config.trans (uncut_fixed start i).2.2
  rw [hpoll]
  by_cases hrunning : m.wake.status = .running
  · obtain ⟨cycles, hmax⟩ := Nat.exists_eq_add_of_lt hcycles
    let n : Machine := { m.wake with outputs := 0 }
    have hn : n.pending = [] ∧ n.clock = clock ∧ n.config = start.config :=
      ⟨m.wake_pending.trans hpending, m.wake_clock, m.wake_config.trans hconfig⟩
    have hmay : n.mayStep := by
      have houtputs' : 0 < n.config.maxOutputs := by rwa [hn.2.2]
      have hs : n.status = .running := hrunning
      have hzero : n.outputs = 0 := rfl
      simp [mayStep, hn.1, hs, hzero, houtputs']
    have hquantum : m.wake.quantum = Machine.runFor cycles n.turn := by
      have hbudget : m.wake.config.maxCycles = cycles + 1 := by
        rw [show m.wake.config = start.config from hn.2.2, hmax, Nat.zero_add]
      rw [quantum, if_pos hrunning, hbudget, runFor_succ, if_pos hmay]
    have hturn : Polled.At ⟨n.turn, d.told, false⟩ (uncut start (i + 1)) before := by
      have hs : n.status = .running := hrunning
      apply Polled.At.turn _ _ _ _ hs _ (uncut_fixed start i).1
      · rw [hn.2.1]
        exact hsteady.at i
      · exact wake_scene h.scene ((hsteady.at i).imp_right And.left)
      · exact hn.2.2.trans (uncut_fixed start i).2.2.symm
      · rw [hn.1, ← h.told, hpending]
      · simp [hn.1]
      · rw [h.halted, hd, hpending]
        rfl
    have hclock : Steady start n.turn.clock := by
      rw [moves_turn.clock, hn.2.1]
      exact hsteady
    obtain ⟨j, hij, hrun⟩ := hturn.runFor cycles rfl hclock
    have hclock' : Steady start (Machine.runFor cycles n.turn).clock := by
      rw [runFor_clock]
      exact hclock
    obtain ⟨k, hjk, htell, -⟩ := hrun.tell rfl hclock'
    rw [hquantum]
    exact ⟨k, Nat.lt_of_succ_le (Nat.le_trans hij hjk), htell⟩
  · have hwake : m.wake = m := by
      rcases m.wake_cases with hwake | hwake
      · exact hwake
      · rw [hwake] at hrunning
        exact absurd rfl hrunning
    rw [hwake] at hrunning
    rw [hwake, quantum, if_neg hrunning]
    have hat : Polled.At { d with machine := m } (uncut start i) before :=
      ⟨h.scene, h.config, h.told, h.texts, h.halted, h.rest⟩
    obtain ⟨j, -, htell, hgets⟩ := hat.tell hd hsteady
    exact ⟨j, hgets hpending hwake hrunning, htell⟩

end Runs

/-! ### Whole runs -/

section Runs

variable {start : Machine} {before : List Event} {i : Nat} {clocks : Nat → Clock} {cycles : Nat}

theorem polled_deliver {n : Nat} (h : (polled clocks cycles start n).At (uncut start i) before)
    {e : Event} {rest : List Event}
    (hpending : (polled clocks cycles start n).machine.pending = e :: rest) :
    (polled clocks cycles start (n + 1)).At (uncut start i) before ∧
      (polled clocks cycles start (n + 1)).machine.pending = rest := by
  have hd : (polled clocks cycles start n).halted = false := by
    cases hhalted : (polled clocks cycles start n).halted with
    | false => rfl
    | true =>
      rw [h.rest hhalted] at hpending
      cases hpending
  rw [polled, Polled.poll, hd, if_neg Bool.false_ne_true, execute_of_cons hpending]
  exact ⟨h.deliver hd hpending _, rfl⟩

theorem polled_flush {n : Nat} (h : (polled clocks cycles start n).At (uncut start i) before) :
    ∃ n', (polled clocks cycles start n').At (uncut start i) before ∧
      (polled clocks cycles start n').machine.pending = [] := by
  generalize hpending : (polled clocks cycles start n).machine.pending = waiting
  induction waiting generalizing n with
  | nil => exact ⟨n, h, hpending⟩
  | cons e rest ih =>
    obtain ⟨hat, hrest⟩ := polled_deliver h hpending
    exact ih hat hrest

variable (htexts : ∀ e ∈ start.pending, e.isPrint)

include htexts in
theorem polled_zero_at : ∃ j, (polled clocks cycles start 0).At (uncut start j) start.pending := by
  have hbegin : Polled.At ⟨start, [], false⟩ (uncut start 0) start.pending := by
    refine ⟨rfl, rfl, ?_, fun e he => htexts e (List.mem_of_mem_dropLast he), ?_, nofun⟩
    · exact congrArg Event.gist (List.append_nil _).symm
    · symm
      rw [Bool.false_or, uncut, List.any_eq_false]
      intro e he
      rw [Event.halts_of_isPrint (htexts e he)]
      exact Bool.false_ne_true
  obtain ⟨i, -, hrun⟩ := hbegin.runFor cycles rfl (.inl rfl)
  obtain ⟨j, -, htell, -⟩ := hrun.tell rfl (.inl (runFor_clock cycles start))
  exact ⟨j, htell⟩

variable (hcycles : 0 < start.config.maxCycles) (houtputs : 0 < start.config.maxOutputs)
  (hsteady : ∀ n, Steady start (clocks n))
include hcycles houtputs hsteady

theorem polled_succ_at {n : Nat} (h : (polled clocks cycles start n).At (uncut start i) before)
    (hpending : (polled clocks cycles start n).machine.pending = []) :
    ∃ j, i < j ∧ (polled clocks cycles start (n + 1)).At (uncut start j) before := by
  cases hd : (polled clocks cycles start n).halted with
  | true =>
    have hp : (uncut start i).halted := by
      rw [h.halted, hd]
      rfl
    refine ⟨i + 1, Nat.lt_succ_self i, ?_⟩
    rw [polled, Polled.poll, if_pos hd, uncut, Polled.advance_of_halted hp]
    exact h
  | false => exact h.poll hcycles houtputs hd hpending (hsteady n)

include htexts

theorem polled_at (n : Nat) :
    ∃ i, (polled clocks cycles start n).At (uncut start i) start.pending := by
  induction n with
  | zero => exact polled_zero_at htexts
  | succ n ih =>
    obtain ⟨i, h⟩ := ih
    cases hpending : (polled clocks cycles start n).machine.pending with
    | nil =>
      obtain ⟨j, -, hat⟩ := polled_succ_at hcycles houtputs hsteady h hpending
      exact ⟨j, hat⟩
    | cons e rest => exact ⟨i, (polled_deliver h hpending).1⟩

/-- A run gets past every point of the course, with everything told. -/
theorem polled_reaches (i : Nat) : ∃ n j, i ≤ j ∧
    (polled clocks cycles start n).At (uncut start j) start.pending ∧
    (polled clocks cycles start n).machine.pending = [] := by
  induction i with
  | zero =>
    obtain ⟨j, h⟩ : ∃ j, (polled clocks cycles start 0).At (uncut start j) start.pending :=
      polled_zero_at htexts
    obtain ⟨n, hat, hpending⟩ := polled_flush h
    exact ⟨n, j, Nat.zero_le j, hat, hpending⟩
  | succ i ih =>
    obtain ⟨n, j, hij, h, hpending⟩ := ih
    obtain ⟨k, hjk, hat⟩ := polled_succ_at hcycles houtputs hsteady h hpending
    obtain ⟨n', hflushed, hpending'⟩ := polled_flush hat
    exact ⟨n', k, Nat.succ_le_of_lt (Nat.lt_of_le_of_lt hij hjk), hflushed, hpending'⟩

end Runs

theorem Polled.At.rested_eq {d p : Polled} {before : List Event} (h : d.At p before)
    (hhalted : d.halted) (hidle : p.machine.pending = []) :
    d.machine.rested = p.machine.rested := by
  have hpending : d.machine.pending = p.machine.pending := by rw [h.rest hhalted, hidle]
  have hrested : d.machine.rested = { p.machine.rested with config := d.machine.config } :=
    congrArg Machine.rested (eq_of_scene h.scene hpending)
  rw [hrested, h.config]
  rfl

/-- One host hears what another hears: what the other is told at some time, apart from what waited
before, it is told too. When the other is told that the program has halted, it is told nothing else
before that either, and the machines are then related. -/
def Hears (R : Machine → Machine → Prop) (before before' : List Event) (run run' : Nat → Polled) :
    Prop :=
  ∀ n, ∃ n' news more,
    Event.gist ((run n).told ++ (run n).machine.pending) = Event.gist (before ++ news) ∧
    Event.gist (run' n').told = Event.gist (before' ++ (news ++ more)) ∧
    ((run n).halted → (run' n').halted ∧ more = [] ∧ R (run n).machine (run' n').machine)

/-- Programs with one course are heard alike, wherever calls cut them. -/
theorem hears_of_uncut {R : Machine → Machine → Prop} {start start' : Machine}
    {clocks clocks' : Nat → Clock} {cycles cycles' : Nat}
    (hcourse : ∀ i, (uncut start' i).told = (uncut start i).told ∧
      (uncut start' i).halted = (uncut start i).halted ∧
      R (uncut start i).machine.rested (uncut start' i).machine.rested)
    (htexts : ∀ e ∈ start.pending, e.isPrint) (htexts' : ∀ e ∈ start'.pending, e.isPrint)
    (hcycles : 0 < start.config.maxCycles) (houtputs : 0 < start.config.maxOutputs)
    (hcycles' : 0 < start'.config.maxCycles) (houtputs' : 0 < start'.config.maxOutputs)
    (hsteady : ∀ n, Steady start (clocks n)) (hsteady' : ∀ n, Steady start' (clocks' n)) :
    Hears (fun m m' => R m.rested m'.rested) start.pending start'.pending
      (polled clocks cycles start) (polled clocks' cycles' start') := by
  intro n
  obtain ⟨i, h⟩ : ∃ i, (polled clocks cycles start n).At (uncut start i) start.pending :=
    polled_at htexts hcycles houtputs hsteady n
  obtain ⟨n', j, hij, h', hpending⟩ : ∃ n' j, i ≤ j ∧
      (polled clocks' cycles' start' n').At (uncut start' j) start'.pending ∧
      (polled clocks' cycles' start' n').machine.pending = [] :=
    polled_reaches htexts' hcycles' houtputs' hsteady' i
  obtain ⟨⟨more, hmore⟩, hstays⟩ := uncut_extends start' hij
  obtain ⟨htold, hhalted, hrelated⟩ := hcourse i
  have hheard := h'.told
  rw [hpending, List.append_nil, hmore, htold] at hheard
  refine ⟨n', (uncut start i).told, more, h.told, hheard, fun hd => ?_⟩
  have hp : (uncut start i).halted := by
    rw [h.halted, hd]
    rfl
  have hsame := hstays (hhalted ▸ hp)
  rw [hsame] at hmore h'
  have hd' : (polled clocks' cycles' start' n').halted := by
    have hpolled := h'.halted
    rw [hhalted, hp, hpending, List.any_nil, Bool.or_false] at hpolled
    exact hpolled.symm
  refine ⟨hd', List.self_eq_append_right.mp hmore, ?_⟩
  dsimp only
  rw [h.rested_eq hd (uncut_fixed start i).1, h'.rested_eq hd' (uncut_fixed start' i).1]
  exact hrelated

end Machine

end LineBasic
