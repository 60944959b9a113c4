import LineBasic.Proofs.Turns

/-!
# Courses

A host calls a machine again and again and answers the events that ask for something. Where its calls
cut the program depends on budgets. The course of the program has no calls: it goes one turn, or one
event other than text, at a time, and no text ever waits in it.
-/

namespace LineBasic

set_option autoImplicit false

namespace Event

/-- What was told so far, after one more event. -/
def hear (heard : List Event) : Event → List Event
  | running => heard
  | print s => appendText heard s
  | e => heard ++ [e]

/-- What events tell when signs of life are dropped and texts that meet are joined. -/
def heard (events : List Event) : List Event :=
  events.foldl hear []

/-- Whether the host has something to answer to an event. -/
def asks : Event → Bool
  | input _ | load _ | save _ => true
  | _ => false

theorem appendText_ne_nil (events : List Event) (s : String) : appendText events s ≠ [] := by
  fun_cases appendText events s <;> simp

theorem appendText_appendText (events : List Event) (s t : String) :
    appendText (appendText events s) t = appendText events (s ++ t) := by
  fun_induction appendText events s with
  | case1 s => rfl
  | case2 u s => simp [appendText, String.append_assoc]
  | case3 e es s hne ih =>
    obtain ⟨f, fs, hfs⟩ := List.exists_cons_of_ne_nil (appendText_ne_nil es s)
    rw [appendText.eq_3 _ _ _ hne, ← ih, hfs]
    exact appendText.eq_3 t e (f :: fs) (by simp)

theorem foldl_hear_appendText (events told : List Event) (s : String) :
    (appendText events s).foldl hear told = appendText (events.foldl hear told) s := by
  fun_induction appendText events s generalizing told with
  | case1 s => rfl
  | case2 u s => exact (appendText_appendText told u s).symm
  | case3 e es s hne ih => exact ih (hear told e)

theorem isPrint_of_mem_appendText {events : List Event} (h : ∀ e ∈ events, e.isPrint) (s : String) :
    ∀ e ∈ appendText events s, e.isPrint := by
  fun_induction appendText events s with
  | case1 s => simp [isPrint]
  | case2 u s => simp [isPrint]
  | case3 e es s hne ih =>
    rw [List.forall_mem_cons] at h ⊢
    exact ⟨h.1, ih h.2⟩

theorem countP_isMark_appendText (events : List Event) (s : String) :
    (appendText events s).countP isMark = events.countP isMark := by
  fun_induction appendText events s with
  | case1 s => rfl
  | case2 u s => rfl
  | case3 e es s hne ih => rw [List.countP_cons, List.countP_cons, ih]

theorem hear_of_isMark {e : Event} (he : e.isMark) (told : List Event) :
    hear told e = told ++ [e] := by
  cases e with
  | print s => cases he
  | running => cases he
  | _ => rfl

theorem countP_isMark_hear (told : List Event) (e : Event) :
    (hear told e).countP isMark = told.countP isMark + [e].countP isMark := by
  cases e with
  | print s => exact countP_isMark_appendText told s
  | running => rfl
  | _ => exact List.countP_append

theorem countP_isMark_foldl_hear (events told : List Event) :
    (events.foldl hear told).countP isMark = told.countP isMark + events.countP isMark := by
  induction events generalizing told with
  | nil => rfl
  | cons e es ih =>
    rw [List.foldl_cons, ih, countP_isMark_hear, Nat.add_assoc, ← List.countP_append]
    rfl

theorem heard_append (events more : List Event) :
    heard (events ++ more) = more.foldl hear (heard events) :=
  List.foldl_append

theorem isPrint_eq_false_of_isMark {e : Event} (he : e.isMark) : e.isPrint = false := by
  cases e with
  | print s => cases he
  | _ => rfl

end Event

namespace Utterance

theorem isPrint_of_mem_texts (texts : List String) {pending : List Event}
    (h : ∀ e ∈ pending, e.isPrint) : ∀ e ∈ texts.foldl Event.appendText pending, e.isPrint := by
  induction texts generalizing pending with
  | nil => exact h
  | cons s ss ih => exact ih (Event.isPrint_of_mem_appendText h s)

theorem foldl_hear_texts (texts : List String) (pending told : List Event) :
    (texts.foldl Event.appendText pending).foldl Event.hear told =
      texts.foldl Event.appendText (pending.foldl Event.hear told) := by
  induction texts generalizing pending with
  | nil => rfl
  | cons s ss ih => rw [List.foldl_cons, ih, Event.foldl_hear_appendText, List.foldl_cons]

theorem filter_isPrint_extend (u : Utterance) {pending : List Event}
    (h : ∀ e ∈ pending, e.isPrint) :
    (u.extend pending).filter Event.isPrint = u.texts.foldl Event.appendText pending ∧
      (u.extend pending).filter (!·.isPrint) = u.mark.toList := by
  have htexts := isPrint_of_mem_texts u.texts h
  have hmark : ∀ e ∈ u.mark.toList, e.isPrint = false := by
    intro e he
    exact Event.isPrint_eq_false_of_isMark (u.isMark_of_mark e (Option.mem_toList.mp he))
  unfold extend
  rw [List.filter_append, List.filter_append]
  constructor
  · rw [List.filter_eq_self.mpr htexts,
      List.filter_eq_nil_iff.mpr fun e he => by simp [hmark e he], List.append_nil]
  · rw [List.filter_eq_nil_iff.mpr fun e he => by simp [htexts e he],
      List.filter_eq_self.mpr fun e he => by simp [hmark e he], List.nil_append]

end Utterance

namespace Machine

/-- What the host says when it is asked: nothing, a line, an interrupt or a new listing. -/
inductive Answer where
  | nothing
  | line (text : String)
  | interrupt
  | listing (listing : Listing)

def Answer.give (m : Machine) : Answer → Machine
  | nothing => m
  | line text => m.enter text
  | interrupt => m.interrupt
  | listing l => m.setListing l

/-- A machine in the hands of a host that keeps the events it is told. -/
structure Driven where
  machine : Machine
  events : List Event
  /-- How many questions the host was asked. -/
  answered : Nat

namespace Driven

variable (answers : Nat → Answer)

/-- The host is told an event, and answers it if it asks. -/
def receive (d : Driven) (e : Event) (m : Machine) : Driven :=
  if e.asks then ⟨(answers d.answered).give m, d.events ++ [e], d.answered + 1⟩
  else ⟨m, d.events ++ [e], d.answered⟩

/-- One call of the host. -/
def call (d : Driven) (clock : Clock) : Driven :=
  d.receive answers (d.machine.execute clock).1 (d.machine.execute clock).2

/-- The next event that waits, one turn of a running program whose texts are told at once, or the
event that a machine at rest stays with. -/
def advance (d : Driven) : Driven :=
  match d.machine.pending with
  | e :: rest => d.receive answers e { d.machine with pending := rest }
  | [] =>
    if d.machine.status = .running then
      let m := d.machine.turn
      ⟨{ m with pending := m.pending.filter (!·.isPrint) },
        (m.pending.filter Event.isPrint).foldl Event.hear d.events, d.answered⟩
    else d.receive answers d.machine.statusEvent d.machine

end Driven

/-- What the host has after so many calls. -/
def drive (answers : Nat → Answer) (clocks : Nat → Clock) (m : Machine) : Nat → Driven
  | 0 => ⟨m, [], 0⟩
  | n + 1 => (drive answers clocks m n).call answers (clocks n)

/-- The course of a program, without calls. -/
def course (answers : Nat → Answer) (m : Machine) : Nat → Driven
  | 0 => ⟨m, [], 0⟩
  | n + 1 => (course answers m n).advance answers

/-- A machine that neither pauses nor asks the time in its next turn. -/
def Timeless (m : Machine) : Prop :=
  (∀ wake, m.status ≠ .asleep wake) ∧
    (m.pending = [] → m.status = .running →
      ∀ clock : Clock, { m with clock := clock }.turn = { m.turn with clock := clock })

/-- Reads a source and starts it from its first statement, if it can be read. -/
def launch (m : Machine) (source : String) : Option Machine :=
  match m.load source with
  | (.ok block, m) => some (m.run block 0)
  | (.error _, _) => none

/-! ### What budgets and clocks do not touch -/

/-- A machine without its budgets, the events that wait and its clock. -/
def scene (m : Machine) : Sight × Place :=
  Aspect.outer.see { m with clock := {} }

theorem see_of_scene {m n : Machine} (h : m.scene = n.scene) :
    Aspect.outer.see { n with clock := m.clock } = Aspect.outer.see m :=
  congrArg (fun v : Sight × Place => ({ v.1 with clock := m.clock }, v.2)) h.symm

theorem status_of_scene {m n : Machine} (h : m.scene = n.scene) : m.status = n.status :=
  congrArg (·.2.status) h

theorem statusEvent_of_status {m n : Machine} (h : m.status = n.status)
    (hwake : ∀ wake, n.status ≠ .asleep wake) : m.statusEvent = n.statusEvent := by
  unfold statusEvent
  rw [h]
  cases hstatus : n.status with
  | asleep wake => exact absurd hstatus (hwake wake)
  | _ => rfl

theorem eq_of_scene {m n : Machine} (h : m.scene = n.scene) (hpending : m.pending = n.pending) :
    m = { n with config := m.config, outputs := m.outputs, clock := m.clock } := by
  have hstep : n.config.signedStep = m.config.signedStep := (congrArg (·.1.signedStep) h).symm
  have hput : Aspect.outer.put m (Aspect.outer.see { n with clock := m.clock }) =
      { n with
        config := { m.config with signedStep := n.config.signedStep }
        outputs := m.outputs, clock := m.clock, pending := m.pending } := rfl
  rw [see_of_scene h, Aspect.put_see, hstep, hpending] at hput
  exact hput

theorem scene_utter_put (m : Machine) (v : Sight × Place) (u : Utterance) :
    ((Aspect.outer.put m v).utter u).scene = ({ v.1 with clock := {} }, v.2) := rfl

/-- Machines of one scene are changed in the same way by what does not ask for the time. -/
theorem Moves.follow {f : Machine → Machine} (hf : Moves f) {m n : Machine}
    (hscene : m.scene = n.scene)
    (hclock : f { n with clock := m.clock } = { f n with clock := m.clock }) :
    (f m).scene = (f n).scene ∧
      ∃ u : Utterance, (f m).pending = u.extend m.pending ∧ (f n).pending = u.extend n.pending := by
  obtain ⟨g, -, hg⟩ := hf
  have hm := hg m
  have hn := hg { n with clock := m.clock }
  rw [see_of_scene hscene, hclock] at hn
  constructor
  · have hscene' : (f n).scene = ({ f n with clock := m.clock } : Machine).scene := rfl
    rw [hscene', hn, hm, scene_utter_put, scene_utter_put]
  · refine ⟨(g (Aspect.outer.see m)).2, congrArg (·.pending) hm, ?_⟩
    exact congrArg (·.pending) hn

/-- Two machines with the same budgets. -/
def SameBudgets (m n : Machine) : Prop :=
  m.config.maxCycles = n.config.maxCycles ∧ m.config.maxOutputs = n.config.maxOutputs

theorem SameBudgets.trans {m n k : Machine} (h : SameBudgets m n) (h' : SameBudgets n k) :
    SameBudgets m k :=
  ⟨h.1.trans h'.1, h.2.trans h'.2⟩

theorem SameBudgets.of_fixtures {m n : Machine} (h : m.fixtures = n.fixtures) : SameBudgets m n :=
  ⟨congrArg (·.1.maxCycles) h, congrArg (·.1.maxOutputs) h⟩

theorem moves_give (a : Answer) : Moves fun m => a.give m := by
  cases a with
  | nothing => exact moves_silent id (fun _ => rfl) fun _ => rfl
  | line text => exact moves_enter text
  | interrupt => exact moves_interrupt
  | listing l => exact moves_setListing l

theorem compile_atClock (m : Machine) (clock : Clock) (source : String) (parent : Option Frame) :
    { m with clock := clock }.compile source parent =
      ((m.compile source parent).1, { (m.compile source parent).2 with clock := clock }) := by
  unfold compile
  dsimp only
  cases m.program.compile m.data source parent with
  | error e => rfl
  | ok r => rfl

theorem runLine_atClock (m : Machine) (clock : Clock) (line : String) :
    { m with clock := clock }.runLine line = { m.runLine line with clock := clock } := by
  unfold runLine
  dsimp only
  rw [compile_atClock]
  cases m.compile line (m.resume.map (·.1)) with
  | mk r n =>
    cases r with
    | ok block => rfl
    | error e => rfl

theorem enter_atClock (m : Machine) (clock : Clock) (line : String) :
    { m with clock := clock }.enter line = { m.enter line with clock := clock } := by
  simp only [enter]
  split
  · rfl
  · split
    · rfl
    · split
      · rfl
      · exact runLine_atClock m clock _

theorem interrupt_atClock (m : Machine) (clock : Clock) :
    { m with clock := clock }.interrupt = { m.interrupt with clock := clock } := by
  simp only [interrupt]
  split <;> rfl

theorem give_atClock (a : Answer) (m : Machine) (clock : Clock) :
    a.give { m with clock := clock } = { a.give m with clock := clock } := by
  cases a with
  | nothing => rfl
  | line text => exact enter_atClock m clock text
  | interrupt => exact interrupt_atClock m clock
  | listing l => rfl

theorem compile_pending (m : Machine) (source : String) (parent : Option Frame) :
    (m.compile source parent).2.pending = m.pending := by
  unfold compile
  split <;> rfl

theorem isMark_pushEvent {m : Machine} (h : ∀ e ∈ m.pending, e.isMark) {f : Event} (hf : f.isMark) :
    ∀ e ∈ (m.pushEvent f).pending, e.isMark := by
  simpa [pushEvent, or_imp, forall_and] using ⟨h, hf⟩

theorem isMark_runLine {m : Machine} (h : ∀ e ∈ m.pending, e.isMark) (line : String) :
    ∀ e ∈ (m.runLine line).pending, e.isMark := by
  have hcompile := compile_pending m line (m.resume.map (·.1))
  unfold runLine
  cases hresult : m.compile line (m.resume.map (·.1)) with
  | mk r n =>
    rw [hresult] at hcompile
    rw [← hcompile] at h
    cases r with
    | ok block => exact h
    | error e => exact isMark_pushEvent h rfl

theorem isMark_give (a : Answer) {m : Machine} (h : ∀ e ∈ m.pending, e.isMark) :
    ∀ e ∈ (a.give m).pending, e.isMark := by
  cases a with
  | nothing => exact h
  | line text =>
    simp only [Answer.give, enter]
    split
    · exact h
    · split
      · exact h
      · split
        · exact h
        · exact isMark_runLine h _
  | interrupt =>
    simp only [Answer.give, interrupt]
    split
    · exact h
    · exact h
    · exact isMark_pushEvent h rfl
  | listing l => exact h

/-! ### Whole courses -/

variable {answers : Nat → Answer} {start : Machine}

theorem Driven.receive_events (d : Driven) (e : Event) (m : Machine) :
    (d.receive answers e m).events = d.events ++ [e] := by
  unfold receive
  split <;> rfl

theorem isMark_statusEvent {m : Machine} (h : m.status ≠ .running) : m.statusEvent.isMark := by
  unfold statusEvent
  split
  · rfl
  · exact absurd ‹_› h
  · rfl
  · rfl

theorem isMark_receive {d : Driven} {m : Machine} (h : ∀ e ∈ m.pending, e.isMark) (f : Event) :
    ∀ e ∈ (d.receive answers f m).machine.pending, e.isMark := by
  unfold Driven.receive
  split
  · exact isMark_give _ h
  · exact h

theorem advance_extends {d : Driven} (h : ∀ e ∈ d.machine.pending, e.isMark) :
    (∀ e ∈ (d.advance answers).machine.pending, e.isMark) ∧
      ∃ more : List Event, (d.advance answers).events = more.foldl Event.hear d.events := by
  cases hpending : d.machine.pending with
  | cons e rest =>
    rw [hpending] at h
    obtain ⟨hmark, hrest⟩ := List.forall_mem_cons.mp h
    simp only [Driven.advance, hpending]
    refine ⟨isMark_receive hrest e, [e], ?_⟩
    rw [Driven.receive_events]
    exact (Event.hear_of_isMark hmark _).symm
  | nil =>
    simp only [Driven.advance, hpending]
    split
    · refine ⟨?_, d.machine.turn.pending.filter Event.isPrint, rfl⟩
      obtain ⟨g, -, hg⟩ := moves_turn
      have hturn : d.machine.turn.pending = (g (Aspect.outer.see d.machine)).2.extend [] := by
        rw [hg, ← hpending]
        rfl
      have hnone := List.forall_mem_nil (Event.isPrint · = true)
      rw [hturn, (Utterance.filter_isPrint_extend _ hnone).2]
      intro e he
      exact Utterance.isMark_of_mark _ e (Option.mem_toList.mp he)
    · rename_i hrunning
      refine ⟨isMark_receive (hpending ▸ h) _, [d.machine.statusEvent], ?_⟩
      rw [Driven.receive_events]
      exact (Event.hear_of_isMark (isMark_statusEvent hrunning) _).symm

theorem course_isMark (hstart : start.pending = []) (i : Nat) :
    ∀ e ∈ (course answers start i).machine.pending, e.isMark := by
  induction i with
  | zero => rw [course, hstart]; exact nofun
  | succ i ih => exact (advance_extends ih).1

theorem course_extends (hstart : start.pending = []) {i j : Nat} (hij : i ≤ j) :
    ∃ more : List Event,
      (course answers start j).events = more.foldl Event.hear (course answers start i).events := by
  induction hij with
  | refl => exact ⟨[], rfl⟩
  | @step j _ ih =>
    obtain ⟨more, hmore⟩ := ih
    obtain ⟨next, hnext⟩ := (advance_extends (course_isMark hstart j)).2
    exact ⟨more ++ next, by rw [List.foldl_append, ← hmore]; exact hnext⟩

theorem course_countP_mono (answers : Nat → Answer) (hstart : start.pending = []) {i j : Nat} (hij : i ≤ j) :
    (course answers start i).events.countP Event.isMark ≤
      (course answers start j).events.countP Event.isMark := by
  obtain ⟨more, hmore⟩ := course_extends hstart hij
  rw [hmore, Event.countP_isMark_foldl_hear]
  exact Nat.le_add_right _ _

/-! ### Programs that are loaded -/

theorem launch_withConfig (m : Machine) (config : Config) (source : String) :
    ({ m with config := config } : Machine).launch source =
      (m.launch source).map fun n => { n with config := config } := by
  unfold launch load compileListing compile
  dsimp only
  cases m.program.clear.compile {} (Listing.ofSource source).source none with
  | error e => rfl
  | ok r => rfl

theorem launch_pending {m n : Machine} {source : String} (h : m.launch source = some n) :
    n.pending = m.pending := by
  unfold launch load compileListing compile at h
  dsimp only at h
  cases hc : m.program.clear.compile {} (Listing.ofSource source).source none with
  | error e => rw [hc] at h; cases h
  | ok r => rw [hc] at h; cases h; rfl

theorem load_of_parse (m : Machine) {source : String} {code : Code}
    (h : parse (Listing.ofSource source).source = .ok code) :
    let block : Block := ⟨m.program.nextId, code.statements, (Listing.ofSource source).source, none⟩
    m.load source = (.ok block, { m with
      scope := m.scope.clear
      memory := ∅
      data := ({} : DataQueue).pushAll (code.data.map Constant.value)
      program := ({ nextId := m.program.nextId + 1 } : Program).addLabels block code.labels
      returns := m.returns.clear
      resume := none
      listing := .ofSource source }) := by
  unfold load compileListing compile Program.compile
  dsimp only
  rw [h]
  rfl

theorem launch_of_parse (m : Machine) {source : String} {code : Code}
    (h : parse (Listing.ofSource source).source = .ok code) :
    let block : Block := ⟨m.program.nextId, code.statements, (Listing.ofSource source).source, none⟩
    m.launch source = some { m with
      scope := m.scope.clear
      memory := ∅
      data := ({} : DataQueue).pushAll (code.data.map Constant.value)
      program := ({ nextId := m.program.nextId + 1 } : Program).addLabels block code.labels
      returns := m.returns.clear
      resume := none
      listing := .ofSource source
      code := some block
      pc := 0
      status := .running } := by
  have hload := load_of_parse m h
  dsimp only at hload ⊢
  unfold launch
  rw [hload]
  rfl

end Machine

end LineBasic
