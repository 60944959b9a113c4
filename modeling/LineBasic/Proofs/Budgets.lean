import Mathlib.Data.List.Basic
import LineBasic.Proofs.Courses

/-!
# Budgets go unnoticed

How many statements and outputs a machine allows itself per call decides where the calls of the host
cut the program, and nothing else: up to signs of life and the joints between texts, the host is told
the same, and whenever it is told anything but text the machine is in the same state. The comparison
goes through the program's course: every driven run is at some point of it, except for texts that
wait.
-/

namespace LineBasic

set_option autoImplicit false

namespace Machine

/-! ### Where a driven run stands in the course -/

namespace Driven

/-- A run is at a point of a course, except that texts still wait to be told. -/
structure At (d s : Driven) (texts : List Event) : Prop where
  scene : d.machine.scene = s.machine.scene
  answered : d.answered = s.answered
  /-- The texts that wait are heard already in the course. -/
  isPrint : ∀ e ∈ texts, e.isPrint
  pending : d.machine.pending = texts ++ s.machine.pending
  events : s.events = texts.foldl Event.hear (Event.heard d.events)
  /-- In the course no text ever waits. -/
  isMark : ∀ e ∈ s.machine.pending, e.isMark

variable {answers : Nat → Answer}

theorem asks_of_isPrint {e : Event} (he : e.isPrint) : e.asks = false := by
  cases e with
  | print s => rfl
  | _ => cases he

theorem At.receive {d s : Driven} {e : Event} {m n : Machine} (hscene : m.scene = n.scene)
    (hanswered : d.answered = s.answered) (hpending : m.pending = n.pending)
    (hevents : s.events = Event.heard d.events) (he : e.isMark)
    (hmarks : ∀ e ∈ n.pending, e.isMark) :
    At (d.receive answers e m) (s.receive answers e n) [] := by
  have htold : s.events ++ [e] = Event.heard (d.events ++ [e]) := by
    rw [Event.heard_append, List.foldl_cons, List.foldl_nil, Event.hear_of_isMark he, hevents]
  unfold Driven.receive
  split
  · obtain ⟨hscene', u, hum, hun⟩ :=
      (moves_give (answers d.answered)).follow hscene (give_atClock _ n _)
    rw [← hanswered]
    refine ⟨hscene', rfl, nofun, ?_, htold, ?_⟩
    · rw [hum, hun, hpending]
      rfl
    · exact isMark_give (answers d.answered) hmarks
  · exact ⟨hscene, hanswered, nofun, hpending, htold, hmarks⟩

theorem At.status {d s : Driven} {texts : List Event} (h : At d s texts) :
    d.machine.status = s.machine.status :=
  status_of_scene h.scene

/-- The next event of a run is a text that waits, or else one that the course comes to next. -/
theorem At.deliver {d s : Driven} {texts rest : List Event} {e : Event} (h : At d s texts)
    (hpending : d.machine.pending = e :: rest) :
    (∃ more, texts = e :: more ∧
      At (d.receive answers e { d.machine with pending := rest }) s more) ∨
    (texts = [] ∧ e.isMark ∧
      At (d.receive answers e { d.machine with pending := rest }) (s.advance answers) [] ∧
      (s.advance answers).events = s.events ++ [e]) := by
  cases texts with
  | cons t more =>
    left
    have hsplit : e = t ∧ rest = more ++ s.machine.pending := by
      have := h.pending
      rw [hpending] at this
      exact List.cons.inj this
    obtain ⟨rfl, rfl⟩ := hsplit
    have hprints := List.forall_mem_cons.mp h.isPrint
    refine ⟨more, rfl, ?_⟩
    rw [Driven.receive, asks_of_isPrint hprints.1, if_neg Bool.false_ne_true]
    refine ⟨h.scene, h.answered, hprints.2, rfl, ?_, h.isMark⟩
    rw [h.events, Event.heard_append]
    rfl
  | nil =>
    right
    have hcourse : s.machine.pending = e :: rest := by rw [← hpending, h.pending, List.nil_append]
    have hmarks : e.isMark ∧ ∀ f ∈ rest, f.isMark := by
      have := h.isMark
      rw [hcourse] at this
      exact List.forall_mem_cons.mp this
    have hadvance : s.advance answers =
        s.receive answers e { s.machine with pending := rest } := by
      rw [advance, hcourse]
    rw [hadvance]
    refine ⟨rfl, hmarks.1, ?_, receive_events _ _ _⟩
    exact At.receive h.scene h.answered rfl h.events hmarks.1 hmarks.2

theorem At.turn {d s : Driven} {texts : List Event} (h : At d s texts)
    (htime : s.machine.Timeless) (hrunning : s.machine.status = .running)
    (hidle : s.machine.pending = []) :
    ∃ texts', At { d with machine := d.machine.turn } (s.advance answers) texts' := by
  have hprints : ∀ e ∈ d.machine.pending, e.isPrint := by
    rw [h.pending, hidle, List.append_nil]
    exact h.isPrint
  obtain ⟨hscene, u, hd, hs⟩ := moves_turn.follow h.scene (htime.2 hidle hrunning _)
  rw [hidle] at hs
  have hfilter := u.filter_isPrint_extend (List.forall_mem_nil (Event.isPrint · = true))
  refine ⟨u.texts.foldl Event.appendText d.machine.pending, ?_⟩
  have hadvance : s.advance answers =
      ⟨{ s.machine.turn with pending := u.mark.toList },
        (u.texts.foldl Event.appendText []).foldl Event.hear s.events, s.answered⟩ := by
    rw [advance, hidle]
    dsimp only
    rw [if_pos hrunning, hs, hfilter.1, hfilter.2]
  rw [hadvance]
  refine ⟨hscene, h.answered, Utterance.isPrint_of_mem_texts u.texts hprints, hd, ?_, ?_⟩
  · dsimp only
    rw [Utterance.foldl_hear_texts, Utterance.foldl_hear_texts, h.events, h.pending, hidle,
      List.append_nil]
    rfl
  · intro e he
    exact u.isMark_of_mark e (Option.mem_toList.mp he)

end Driven

variable {answers : Nat → Answer} {start : Machine}

theorem pending_of_mayStep {d s : Driven} {texts : List Event} (h : d.At s texts)
    (hmay : d.machine.mayStep) : s.machine.pending = [] := by
  refine Classical.byContradiction fun hne => ?_
  have hlast : (s.machine.pending.getLast hne).isMark := h.isMark _ (List.getLast_mem hne)
  have hprint : d.machine.pending.getLast?.all Event.isPrint := by
    simp only [mayStep, Bool.and_eq_true] at hmay
    exact hmay.2
  rw [h.pending, List.getLast?_append, List.getLast?_eq_some_getLast hne, Option.some_or,
    Option.all_some, Event.isPrint_eq_false_of_isMark hlast] at hprint
  cases hprint

/-- Running for a while takes a run along the course. -/
theorem runFor_at (htime : ∀ i, (course answers start i).machine.Timeless) (cycles : Nat)
    {d : Driven} {i : Nat} {texts : List Event} (h : d.At (course answers start i) texts) :
    ∃ j texts', i ≤ j ∧
      Driven.At { d with machine := runFor cycles d.machine } (course answers start j) texts' ∧
      (0 < cycles → d.machine.mayStep → i < j) := by
  induction cycles generalizing d i texts with
  | zero => exact ⟨i, texts, Nat.le_refl i, h, nofun⟩
  | succ cycles ih =>
    rw [runFor_succ]
    by_cases hmay : d.machine.mayStep
    · have hrunning : d.machine.status = .running := by
        simp only [mayStep, Bool.and_eq_true, beq_iff_eq] at hmay
        exact hmay.1.1
      rw [if_pos hmay]
      obtain ⟨texts', hturn⟩ := h.turn (htime i) (h.status ▸ hrunning)
        (pending_of_mayStep h hmay)
      obtain ⟨j, texts'', hij, hat, -⟩ := ih (i := i + 1) hturn
      exact ⟨j, texts'', by omega, hat, fun _ _ => by omega⟩
    · rw [if_neg hmay]
      exact ⟨i, texts, Nat.le_refl i, h, fun _ h' => absurd h' hmay⟩

/-- A run that is told `e` gets to a point of the course that is later than `i`, unless texts waited
and `e` was the first of them; a mark it is told only where the course has just come to it. -/
def Tells (answers : Nat → Answer) (start : Machine) (d : Driven) (i : Nat) (texts : List Event)
    (e : Event) : Prop :=
  ∃ j texts', d.At (course answers start j) texts' ∧
    (i < j ∧ texts = [] ∨ i = j ∧ texts = e :: texts') ∧
    (e.isMark → texts' = [] ∧ i < j ∧
      (course answers start j).events = (course answers start (j - 1)).events ++ [e])

theorem deliver_at {d : Driven} {i : Nat} {texts rest : List Event} {e : Event}
    (h : d.At (course answers start i) texts) (hpending : d.machine.pending = e :: rest) :
    Tells answers start (d.receive answers e { d.machine with pending := rest }) i texts e := by
  rcases h.deliver hpending with ⟨more, rfl, hat⟩ | ⟨rfl, hmark, hat, hevents⟩
  · refine ⟨i, more, hat, .inr ⟨rfl, rfl⟩, fun hmark => ?_⟩
    have hprint := h.isPrint e List.mem_cons_self
    rw [Event.isPrint_eq_false_of_isMark hmark] at hprint
    cases hprint
  · exact ⟨i + 1, [], hat, .inl ⟨Nat.lt_succ_self i, rfl⟩,
      fun _ => ⟨rfl, Nat.lt_succ_self i, hevents⟩⟩

/-- A machine with nothing to tell tells its status. If it is running, that is only a sign of life;
else the course comes to the same event. -/
theorem status_at (htime : ∀ i, (course answers start i).machine.Timeless) {d : Driven} {i : Nat}
    {texts : List Event} (h : d.At (course answers start i) texts)
    (hpending : d.machine.pending = []) :
    (d.machine.status = .running ∧
      (d.receive answers d.machine.statusEvent d.machine).At (course answers start i) [] ∧
      d.machine.statusEvent.isMark = false) ∨
    Tells answers start (d.receive answers d.machine.statusEvent d.machine) i texts
      d.machine.statusEvent := by
  have hempty : texts = [] ∧ (course answers start i).machine.pending = [] := by
    rw [h.pending] at hpending
    exact List.append_eq_nil_iff.mp hpending
  obtain ⟨rfl, hidle⟩ := hempty
  by_cases hrunning : d.machine.status = .running
  · left
    have hevent : d.machine.statusEvent = .running := by rw [statusEvent, hrunning]
    rw [hevent]
    refine ⟨hrunning, ⟨h.scene, h.answered, nofun, h.pending, ?_, h.isMark⟩, rfl⟩
    rw [Driven.receive_events, Event.heard_append]
    exact h.events
  · right
    have hevent : d.machine.statusEvent = (course answers start i).machine.statusEvent :=
      statusEvent_of_status h.status (htime i).1
    have hmark := isMark_statusEvent hrunning
    have hcourse : course answers start (i + 1) =
        (course answers start i).receive answers d.machine.statusEvent
          (course answers start i).machine := by
      rw [course, Driven.advance, hidle]
      dsimp only
      rw [if_neg (h.status ▸ hrunning), hevent]
    refine ⟨i + 1, [], ?_, .inl ⟨Nat.lt_succ_self i, rfl⟩, fun _ => ?_⟩
    · rw [hcourse]
      exact Driven.At.receive h.scene h.answered h.pending h.events hmark h.isMark
    · exact ⟨rfl, Nat.lt_succ_self i, by rw [hcourse, Driven.receive_events]; rfl⟩

theorem Tells.of_lt {d : Driven} {i j : Nat} {texts : List Event} {e : Event}
    (h : Tells answers start d j texts e) (hij : i < j) : Tells answers start d i [] e := by
  obtain ⟨k, texts', hat, hjk, hmark⟩ := h
  have hik : i < k := by omega
  refine ⟨k, texts', hat, .inl ⟨hik, rfl⟩, fun he => ?_⟩
  obtain ⟨htexts, -, hevents⟩ := hmark he
  exact ⟨htexts, hik, hevents⟩

theorem tell_at (htime : ∀ i, (course answers start i).machine.Timeless) {d : Driven} {i j : Nat}
    {texts : List Event} (h : d.At (course answers start j) texts) (hij : i < j) :
    Tells answers start (d.receive answers d.machine.tell.1 d.machine.tell.2) i []
      d.machine.tell.1 := by
  cases hpending : d.machine.pending with
  | cons e rest =>
    have htell : d.machine.tell = (e, { d.machine with pending := rest }) := by
      simp only [tell, hpending]
    rw [htell]
    exact (deliver_at h hpending).of_lt hij
  | nil =>
    have htell : d.machine.tell = (d.machine.statusEvent, d.machine) := by
      simp only [tell, hpending]
    rw [htell]
    rcases status_at htime h hpending with ⟨-, hat, hmark⟩ | htells
    · refine ⟨j, [], hat, .inl ⟨hij, rfl⟩, fun he => ?_⟩
      rw [hmark] at he
      cases he
    · exact htells.of_lt hij

/-- Every call tells the next part of the course. -/
theorem call_at (htime : ∀ i, (course answers start i).machine.Timeless) {d : Driven} {i : Nat}
    {texts : List Event} (h : d.At (course answers start i) texts)
    (hcycles : 0 < d.machine.config.maxCycles) (houtputs : 0 < d.machine.config.maxOutputs)
    (clock : Clock) :
    Tells answers start (d.call answers clock) i texts (d.machine.execute clock).1 := by
  unfold Driven.call
  cases hpending : d.machine.pending with
  | cons e rest =>
    rw [execute_of_cons hpending]
    have hat : Driven.At { d with machine := { d.machine with clock := clock } }
        (course answers start i) texts :=
      ⟨h.scene, h.answered, h.isPrint, h.pending, h.events, h.isMark⟩
    exact deliver_at hat hpending
  | nil =>
    have hempty : texts = [] := (List.append_eq_nil_iff.mp (h.pending ▸ hpending)).1
    subst hempty
    have hawake : ∀ wake, d.machine.status ≠ .asleep wake := h.status ▸ (htime i).1
    have hwake : ({ d.machine with clock := clock } : Machine).wake =
        { d.machine with clock := clock } := wake_of_not_asleep hawake
    rw [execute_of_nil hpending, hwake]
    by_cases hrunning : d.machine.status = .running
    · let m : Machine := { d.machine with clock := clock, outputs := 0 }
      have hmay : m.mayStep := by
        simp [m, mayStep, hrunning, hpending, houtputs]
      have hat : Driven.At { d with machine := m } (course answers start i) [] :=
        ⟨h.scene, h.answered, h.isPrint, h.pending, h.events, h.isMark⟩
      obtain ⟨j, texts', -, hrun, hlt⟩ := runFor_at htime d.machine.config.maxCycles hat
      have hquantum : ({ d.machine with clock := clock } : Machine).quantum =
          m.runFor d.machine.config.maxCycles := if_pos hrunning
      rw [hquantum]
      exact tell_at htime hrun (hlt hcycles hmay)
    · have hat : Driven.At { d with machine := { d.machine with clock := clock } }
          (course answers start i) [] :=
        ⟨h.scene, h.answered, h.isPrint, h.pending, h.events, h.isMark⟩
      have hquantum : ({ d.machine with clock := clock } : Machine).quantum =
          { d.machine with clock := clock } := if_neg hrunning
      have htell : ({ d.machine with clock := clock } : Machine).tell =
          (({ d.machine with clock := clock } : Machine).statusEvent,
            { d.machine with clock := clock }) := by
        simp only [tell, hpending]
      rw [hquantum, htell]
      rcases status_at htime hat hpending with ⟨hrunning', -, -⟩ | htells
      · exact absurd hrunning' hrunning
      · exact htells

/-! ### Whole runs -/

theorem drive_sameBudgets (answers : Nat → Answer) (clocks : Nat → Clock) (m : Machine) (n : Nat) :
    SameBudgets (drive answers clocks m n).machine m := by
  induction n with
  | zero => exact ⟨rfl, rfl⟩
  | succ n ih =>
    have hexecute := SameBudgets.of_fixtures
      (execute_fixtures (drive answers clocks m n).machine (clocks n))
    rw [drive, Driven.call, Driven.receive]
    split
    · exact (SameBudgets.of_fixtures ((moves_give _).fixtures _)).trans (hexecute.trans ih)
    · exact hexecute.trans ih

section Runs

variable (htime : ∀ i, (course answers start i).machine.Timeless) {clocks : Nat → Clock}
  {m : Machine} (hscene : m.scene = start.scene) (hidle : m.pending = []) (hstart : start.pending = [])
  (hcycles : 0 < m.config.maxCycles) (houtputs : 0 < m.config.maxOutputs)

theorem drive_zero_at (hscene : m.scene = start.scene) (hidle : m.pending = [])
    (hstart : start.pending = []) : (drive answers clocks m 0).At (course answers start 0) [] :=
  ⟨hscene, rfl, nofun, by rw [drive, course, hidle, hstart]; rfl, rfl,
    by rw [course, hstart]; exact nofun⟩

include hcycles houtputs htime

theorem drive_tells {n i : Nat} {texts : List Event}
    (h : (drive answers clocks m n).At (course answers start i) texts) :
    Tells answers start (drive answers clocks m (n + 1)) i texts
      ((drive answers clocks m n).machine.execute (clocks n)).1 := by
  have hbudgets := drive_sameBudgets answers clocks m n
  exact call_at htime h (by rw [hbudgets.1]; exact hcycles) (by rw [hbudgets.2]; exact houtputs) _

theorem drive_flush {n i : Nat} {texts : List Event}
    (h : (drive answers clocks m n).At (course answers start i) texts) :
    ∃ n', (drive answers clocks m n').At (course answers start i) [] := by
  induction texts generalizing n with
  | nil => exact ⟨n, h⟩
  | cons t more ih =>
    obtain ⟨j, texts', hat, hstep, -⟩ := drive_tells htime hcycles houtputs h
    rcases hstep with ⟨-, hnil⟩ | ⟨rfl, hcons⟩
    · cases hnil
    · obtain ⟨-, rfl⟩ := List.cons.inj hcons
      exact ih hat

include hscene hidle hstart

theorem drive_at (n : Nat) :
    ∃ i texts, (drive answers clocks m n).At (course answers start i) texts := by
  induction n with
  | zero => exact ⟨0, [], drive_zero_at hscene hidle hstart⟩
  | succ n ih =>
    obtain ⟨i, texts, h⟩ := ih
    obtain ⟨j, texts', hat, -⟩ := drive_tells htime hcycles houtputs h
    exact ⟨j, texts', hat⟩

/-- A run gets past every point of the course, with all texts told. -/
theorem drive_reaches (i : Nat) :
    ∃ n j, i ≤ j ∧ (drive answers clocks m n).At (course answers start j) [] := by
  induction i with
  | zero => exact ⟨0, 0, Nat.le_refl 0, drive_zero_at hscene hidle hstart⟩
  | succ i ih =>
    obtain ⟨n, j, hij, h⟩ := ih
    obtain ⟨k, texts, hat, hstep, -⟩ := drive_tells htime hcycles houtputs h
    rcases hstep with ⟨hjk, -⟩ | ⟨-, hcons⟩
    · obtain ⟨n', hflushed⟩ := drive_flush htime hcycles houtputs hat
      exact ⟨n', k, by omega, hflushed⟩
    · cases hcons

theorem drive_mark {n : Nat} {e : Event} (hlast : (drive answers clocks m n).events.getLast? = some e)
    (hmark : e.isMark) :
    ∃ i, (drive answers clocks m n).At (course answers start (i + 1)) [] ∧
      (course answers start (i + 1)).events = (course answers start i).events ++ [e] := by
  cases n with
  | zero => cases hlast
  | succ n =>
    obtain ⟨i, texts, h⟩ := drive_at htime hscene hidle hstart hcycles houtputs n
    obtain ⟨j, texts', hat, -, htold⟩ := drive_tells htime hcycles houtputs h
    have he : ((drive answers clocks m n).machine.execute (clocks n)).1 = e := by
      rw [drive, Driven.call, Driven.receive_events, List.getLast?_concat] at hlast
      exact Option.some.inj hlast
    rw [he] at htold
    obtain ⟨rfl, hij, hevents⟩ := htold hmark
    obtain ⟨j, rfl⟩ := Nat.exists_eq_add_of_lt (Nat.zero_lt_of_lt hij)
    rw [Nat.zero_add] at hat hevents
    exact ⟨j, hat, hevents⟩

end Runs

/-! ### The course is one for all budgets -/

theorem Driven.At.countP_isMark {d s : Driven} {texts : List Event} (h : d.At s texts) :
    s.events.countP Event.isMark = d.events.countP Event.isMark := by
  have htexts : texts.countP Event.isMark = 0 := by
    rw [List.countP_eq_zero]
    intro e he hmark
    have hprint := h.isPrint e he
    rw [Event.isPrint_eq_false_of_isMark hmark] at hprint
    cases hprint
  rw [h.events, Event.countP_isMark_foldl_hear, htexts, Event.heard,
    Event.countP_isMark_foldl_hear, List.countP_nil, Nat.zero_add, Nat.add_zero]

theorem drive_last_mark {clocks : Nat → Clock} {m : Machine} {c k : Nat}
    (hc : c + 1 ≤ (drive answers clocks m k).events.countP Event.isMark) :
    ∃ k' e, (drive answers clocks m k').events.getLast? = some e ∧ e.isMark ∧
      (drive answers clocks m k').events.countP Event.isMark = c + 1 := by
  induction k with
  | zero => cases hc
  | succ k ih =>
    by_cases hbefore : c + 1 ≤ (drive answers clocks m k).events.countP Event.isMark
    · exact ih hbefore
    · have hevents : (drive answers clocks m (k + 1)).events = (drive answers clocks m k).events ++
          [((drive answers clocks m k).machine.execute (clocks k)).1] :=
        Driven.receive_events _ _ _
      rw [hevents, List.countP_append, List.countP_singleton] at hc
      by_cases hmark : (((drive answers clocks m k).machine.execute (clocks k)).1).isMark
      · refine ⟨k + 1, _, by rw [hevents, List.getLast?_concat], hmark, ?_⟩
        rw [if_pos hmark] at hc
        rw [hevents, List.countP_append, List.countP_singleton, if_pos hmark]
        omega
      · rw [if_neg hmark] at hc
        exact absurd hc hbefore

/-- One run follows another: what the host is told in the one it is told in the other, and whenever
it has just been told anything but text, the other gets to where it has been told the same, and is
in the same state but for its budgets and its clock. -/
structure Follows (runB runA : Nat → Driven) : Prop where
  told : ∀ n, ∃ k more, Event.heard ((runA n).events ++ more) = Event.heard (runB k).events
  state : ∀ n e, (runA n).events.getLast? = some e → e.isMark →
    ∃ k, (runB k).events.getLast? = some e ∧
      Event.heard (runA n).events = Event.heard (runB k).events ∧
      (runB k).machine = { (runA n).machine with
        config := (runB k).machine.config
        outputs := (runB k).machine.outputs
        clock := (runB k).machine.clock }

/-- Runs that start from one scene follow each other. -/
theorem follows_of_scene {m n : Machine} {clocks clocks' : Nat → Clock}
    (htime : ∀ i, (course answers start i).machine.Timeless) (hstart : start.pending = [])
    (hm : m.scene = start.scene) (hmidle : m.pending = [])
    (hmcycles : 0 < m.config.maxCycles) (hmoutputs : 0 < m.config.maxOutputs)
    (hn : n.scene = start.scene) (hnidle : n.pending = [])
    (hncycles : 0 < n.config.maxCycles) (hnoutputs : 0 < n.config.maxOutputs) :
    Follows (drive answers clocks' n) (drive answers clocks m) := by
  constructor
  · intro k
    obtain ⟨i, texts, h⟩ := drive_at htime hm hmidle hstart hmcycles hmoutputs k
    obtain ⟨k', j, hij, h'⟩ := drive_reaches htime hn hnidle hstart hncycles hnoutputs i
    obtain ⟨more, hmore⟩ := course_extends hstart hij
    refine ⟨k', texts ++ more, ?_⟩
    rw [Event.heard_append, List.foldl_append, ← h.events, ← hmore, h'.events]
    rfl
  · intro k e hlast hmark
    obtain ⟨i, h, hevents⟩ := drive_mark htime hm hmidle hstart hmcycles hmoutputs hlast hmark
    -- The number of marks tells where in the course a run stands that has just been told one.
    obtain ⟨k', j, hij, h'⟩ := drive_reaches htime hn hnidle hstart hncycles hnoutputs (i + 1)
    have hcount : (course answers start (i + 1)).events.countP Event.isMark =
        (course answers start i).events.countP Event.isMark + 1 := by
      rw [hevents, List.countP_append, List.countP_singleton, if_pos hmark]
    have hmany := course_countP_mono answers hstart hij
    rw [hcount, h'.countP_isMark] at hmany
    obtain ⟨k'', e', hlast', hmark', hcount'⟩ := drive_last_mark hmany
    obtain ⟨i', h'', hevents'⟩ :=
      drive_mark htime hn hnidle hstart hncycles hnoutputs hlast' hmark'
    have hsame : i' = i := by
      have hcount'' : (course answers start (i' + 1)).events.countP Event.isMark =
          (course answers start i').events.countP Event.isMark + 1 := by
        rw [hevents', List.countP_append, List.countP_singleton, if_pos hmark']
      rw [← h''.countP_isMark, ← hcount] at hcount'
      rcases Nat.lt_trichotomy i' i with hlt | heq | hgt
      · have hle : i' + 1 ≤ i := hlt
        have := course_countP_mono answers hstart hle
        omega
      · exact heq
      · have hle : i + 1 ≤ i' := hgt
        have := course_countP_mono answers hstart hle
        omega
    subst hsame
    have he : e' = e := by
      rw [hevents] at hevents'
      exact (List.singleton_inj.mp (List.append_cancel_left hevents')).symm
    refine ⟨k'', he ▸ hlast', ?_, ?_⟩
    · exact h.events.symm.trans h''.events
    · apply eq_of_scene (h''.scene.trans h.scene.symm)
      rw [h''.pending, h.pending]

/-! ### A program that asks without end -/

theorem run_ask {n : Machine} {c : Command} (p q : Pos) (hc : n.commands["input"]? = some c)
    (haction : c.action = .builtin .input) :
    (Action.exec (.command p "input" (some (.var q "x")) true)).run n =
      (.ok (), { n with status := .input "" ["x"], literalNames := false }) := by
  rw [Action.exec, Action.command, Action.run_bind, Action.run_get]
  dsimp only
  rw [hc]
  dsimp only
  rw [haction]
  rfl

/-- A machine in a loop without guards that asks for a number. -/
structure Asks (block : Block) (m : Machine) : Prop where
  code : m.code = some block
  statements : block.statements = #[.do ⟨1, 1⟩ none ⟨0, 3⟩,
    .command ⟨2, 1⟩ "input" (some (.var ⟨2, 7⟩ "x")) true, .loop ⟨3, 1⟩ none ⟨0, 3⟩]
  input : ∃ c, m.commands["input"]? = some c ∧ c.action = .builtin .input
  pc : m.pc = 0 ∨ m.pc = 1 ∨ m.pc = 2
  status : m.status = .running ∨ m.status = .input "" ["x"]

namespace Asks

variable {block : Block} {m : Machine}

/-- Each turn shows its line and goes on to the next one, and the second asks. -/
theorem turn (h : Asks block m) (hrunning : m.status = .running) :
    m.turn = { ({ m with pc := m.pc + 1 } : Machine).trace ⟨m.pc + 1, 1⟩ with
      pc := (m.pc + 1) % 3
      status := if m.pc = 1 then .input "" ["x"] else .running
      literalNames := m.pc != 1 && m.literalNames } := by
  obtain ⟨c, hc, haction⟩ := h.input
  rcases h.pc with hpc | hpc | hpc
  · have hs : block.statements[m.pc]? = some (.do ⟨1, 1⟩ none ⟨0, 3⟩) := by
      rw [h.statements, hpc]
      rfl
    rw [turn_of_statement h.code hs, step, hpc, trace_eq, trace_eq, ← hrunning]
    rfl
  · have hs : block.statements[m.pc]? =
        some (.command ⟨2, 1⟩ "input" (some (.var ⟨2, 7⟩ "x")) true) := by
      rw [h.statements, hpc]
      rfl
    rw [turn_of_statement h.code hs, step, hpc, trace_eq, run_ask _ _ ?_ haction, trace_eq]
    · rfl
    · exact hc
  · have hs : block.statements[m.pc]? = some (.loop ⟨3, 1⟩ none ⟨0, 3⟩) := by
      rw [h.statements, hpc]
      rfl
    rw [turn_of_statement h.code hs, step, hpc, trace_eq, trace_eq, ← hrunning]
    rfl

theorem timeless (h : Asks block m) : m.Timeless := by
  constructor
  · intro wake hasleep
    rcases h.status with hs | hs <;> cases hs.symm.trans hasleep
  · intro _ hrunning clock
    have hat : Asks block { m with clock := clock } := ⟨h.code, h.statements, h.input, h.pc, h.status⟩
    rw [hat.turn hrunning, h.turn hrunning, trace_eq, trace_eq]
    rfl

/-- The answer is a line, whichever. -/
theorem advance {d : Driven} (h : Asks block d.machine) (hidle : d.machine.pending = [])
    (line : String) : Asks block (d.advance fun _ => .line line).machine ∧
      (d.advance fun _ => .line line).machine.pending = [] := by
  rw [Driven.advance, hidle]
  dsimp only
  rcases h.status with hs | hs
  · have hpc (pc : Nat) : (pc + 1) % 3 = 0 ∨ (pc + 1) % 3 = 1 ∨ (pc + 1) % 3 = 2 := by omega
    have hstatus (p : Prop) [Decidable p] : (if p then Status.input "" ["x"] else .running) =
        .running ∨ (if p then Status.input "" ["x"] else .running) = .input "" ["x"] := by
      by_cases hp : p <;> simp [hp]
    rw [if_pos hs, h.turn hs, trace_eq]
    refine ⟨⟨h.code, h.statements, h.input, hpc _, hstatus _⟩, ?_⟩
    have hprints : ∀ e ∈ d.machine.pending, e.isPrint := by
      rw [hidle]
      exact List.forall_mem_nil _
    exact (Utterance.filter_isPrint_extend _ hprints).2
  · have hrunning : d.machine.status ≠ .running := by
      rw [hs]
      rintro ⟨⟩
    have hevent : d.machine.statusEvent = .input "" := by simp only [statusEvent, hs]
    have henter : d.machine.enter line = { d.machine with
        scope := (d.machine.enter line).scope, status := .running } := by
      simp only [enter, hs]
    rw [if_neg hrunning, hevent, Driven.receive]
    change Asks block (d.machine.enter line) ∧ (d.machine.enter line).pending = []
    rw [henter]
    exact ⟨⟨h.code, h.statements, h.input, h.pc, .inl rfl⟩, hidle⟩

theorem course (h : Asks block m) (hidle : m.pending = []) (line : String) (i : Nat) :
    Asks block (course (fun _ => .line line) m i).machine ∧
      (course (fun _ => .line line) m i).machine.pending = [] := by
  induction i with
  | zero => exact ⟨h, hidle⟩
  | succ i ih => exact ih.1.advance ih.2 line

end Asks

theorem asking_loop_launches {m : Machine} (hidle : m.pending = [])
    (hinput : ∃ c, m.commands["input"]? = some c ∧ c.action = .builtin .input) :
    ∃ started, m.launch "do\ninput x\nloop" = some started ∧ ∀ line config i,
      (course (fun _ => .line line) { started with config := config } i).machine.Timeless := by
  have hsource : (Listing.ofSource "do\ninput x\nloop").source = "do\ninput x\nloop" := by
    decide +kernel
  have hparse : parse (Listing.ofSource "do\ninput x\nloop").source =
      .ok ⟨#[.do ⟨1, 1⟩ none ⟨0, 3⟩,
        .command ⟨2, 1⟩ "input" (some (.var ⟨2, 7⟩ "x")) true, .loop ⟨3, 1⟩ none ⟨0, 3⟩], [], []⟩ := by
    rw [hsource]
    decide +kernel
  refine ⟨_, launch_of_parse m hparse, fun line config i => ?_⟩
  apply Asks.timeless
  apply And.left
  apply Asks.course
  · exact ⟨rfl, rfl, hinput, .inl rfl, .inl rfl⟩
  · exact hidle

/-- A machine that shows the line of every statement it runs. -/
def tracer : Machine :=
  { new {} (.ofSeed 7) with tracing := true }

theorem tracer_input : ∃ c, tracer.commands["input"]? = some c ∧ c.action = .builtin .input := by
  have hinput : tracer.commands["input"]?.any fun c => c.action matches .builtin .input := by
    decide +kernel
  obtain ⟨c, hc, haction⟩ := (Option.any_eq_true _ _).mp hinput
  refine ⟨c, hc, ?_⟩
  split at haction
  · assumption
  · cases haction

/-! ### Main statement -/

/-- How many statements and outputs a machine allows itself per call makes no difference to a program
that neither pauses nor asks the time. Commands of the host may print and store variables. -/
theorem budgets_unnoticed (m : Machine) (hidle : m.pending = []) (source : String) (started : Machine)
    (hloads : m.launch source = some started) (answers : Nat → Answer) (a b : Config)
    (ha : 1 ≤ a.maxCycles ∧ 1 ≤ a.maxOutputs) (hb : 1 ≤ b.maxCycles ∧ 1 ≤ b.maxOutputs)
    (hstep : a.signedStep = b.signedStep)
    (htime : ∀ i, (course answers { started with config := a } i).machine.Timeless) :
    ∃ startA startB : Machine,
      ({ m with config := a } : Machine).launch source = some startA ∧
      ({ m with config := b } : Machine).launch source = some startB ∧
      ∀ clocksA clocksB : Nat → Clock,
        Follows (drive answers clocksB startB) (drive answers clocksA startA) ∧
        Follows (drive answers clocksA startA) (drive answers clocksB startB) := by
  have hpending : started.pending = [] := (launch_pending hloads).trans hidle
  refine ⟨{ started with config := a }, { started with config := b }, ?_, ?_, ?_⟩
  · rw [launch_withConfig, hloads]
    rfl
  · rw [launch_withConfig, hloads]
    rfl
  · intro clocksA clocksB
    have hscene : ({ started with config := b } : Machine).scene =
        ({ started with config := a } : Machine).scene := by
      have hsight (c : Config) : ({ started with config := c } : Machine).scene =
        ({ started.scene.1 with signedStep := c.signedStep }, started.scene.2) := rfl
      rw [hsight a, hsight b, hstep]
    constructor
    · exact follows_of_scene htime hpending rfl hpending ha.1 ha.2 hscene hpending hb.1 hb.2
    · exact follows_of_scene htime hpending hscene hpending hb.1 hb.2 rfl hpending ha.1 ha.2

/-- A tracing machine that asks again and again tells the same with the smallest budgets as with the
usual ones, and is in the same state each time it asks. -/
theorem budgets_unnoticed_by_asking_loop :
    ∃ startA startB : Machine,
      ({ tracer with config := { maxCycles := 1, maxOutputs := 1 } } : Machine).launch
        "do\ninput x\nloop" = some startA ∧
      ({ tracer with config := {} } : Machine).launch "do\ninput x\nloop" = some startB ∧
      (drive (fun _ => .line "7") (fun _ => {}) startA 3).events =
        [.print "[1]", .print "[2]", .input ""] ∧
      ∀ clocksA clocksB : Nat → Clock,
        Follows (drive (fun _ => .line "7") clocksB startB)
          (drive (fun _ => .line "7") clocksA startA) ∧
        Follows (drive (fun _ => .line "7") clocksA startA)
          (drive (fun _ => .line "7") clocksB startB) := by
  obtain ⟨started, hloads, htime⟩ := asking_loop_launches rfl tracer_input
  obtain ⟨startA, startB, hA, hB, hfollows⟩ := budgets_unnoticed tracer rfl "do\ninput x\nloop" started
    hloads (fun _ => .line "7") { maxCycles := 1, maxOutputs := 1 } {} (by decide) (by decide) rfl
    (htime _ _)
  have htold : (({ tracer with config := { maxCycles := 1, maxOutputs := 1 } } : Machine).launch
      "do\ninput x\nloop").map (fun m => (drive (fun _ => .line "7") (fun _ => {}) m 3).events) =
        some [.print "[1]", .print "[2]", .input ""] := by
    decide +kernel
  rw [hA] at htold
  exact ⟨startA, startB, hA, hB, Option.some_inj.mp htold, hfollows⟩

end Machine

end LineBasic
