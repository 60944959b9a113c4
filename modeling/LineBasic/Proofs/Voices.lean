import LineBasic.Proofs.Courses
import LineBasic.Proofs.NestedLines

/-!
# What statements tell

What a statement has to tell the host depends on the machine that it finds, and not on what waits to
be delivered already: the text that a command prints, a request to clear the screen, to load or to
save, the report of an error, and the line number of a statement that is traced. Whatever it is
comes behind everything that waits, and text joins text.
-/

namespace LineBasic

set_option autoImplicit false

namespace Event

/-- Whether an event is about something that happened, and not just about the machine's status. -/
def isNews : Event → Bool
  | print _ | cls | error _ | load _ | save _ => true
  | _ => false

/-- Whether an event is something that a statement has to tell which does not fail. -/
def isCalm : Event → Bool
  | print _ | cls | load _ | save _ => true
  | _ => false

theorem isNews_of_isCalm {e : Event} (h : e.isCalm) : e.isNews := by
  cases e with
  | print | cls | load | save => rfl
  | _ => cases h

/-- Whether an event counts as an output operation. -/
def isOutput : Event → Bool
  | print _ | cls => true
  | _ => false

theorem foldl_hear_foldl_hear (events pending told : List Event) :
    (events.foldl hear pending).foldl hear told = events.foldl hear (pending.foldl hear told) := by
  induction events generalizing pending with
  | nil => rfl
  | cons e es ih =>
    rw [List.foldl_cons, ih, List.foldl_cons]
    congr 1
    cases e with
    | print s => exact foldl_hear_appendText pending told s
    | running => rfl
    | _ => exact List.foldl_append

/-- What holds of all that waits and of all texts still holds when text has joined text. -/
theorem forall_mem_appendText {P : Event → Prop} (hprint : ∀ s, P (.print s)) {events : List Event}
    (h : ∀ e ∈ events, P e) (s : String) : ∀ e ∈ appendText events s, P e := by
  fun_induction appendText events s with
  | case1 s => exact List.forall_mem_singleton.mpr (hprint s)
  | case2 u s => exact List.forall_mem_singleton.mpr (hprint _)
  | case3 e es s hne ih =>
    rw [List.forall_mem_cons] at h ⊢
    exact ⟨h.1, ih h.2⟩

theorem forall_mem_foldl_hear {P : Event → Prop} (hprint : ∀ s, P (.print s))
    {events pending : List Event} (h : ∀ e ∈ events, P e) (hpending : ∀ e ∈ pending, P e) :
    ∀ e ∈ events.foldl hear pending, P e := by
  induction events generalizing pending with
  | nil => exact hpending
  | cons e es ih =>
    obtain ⟨he, hes⟩ := List.forall_mem_cons.mp h
    apply ih hes
    cases e with
    | print s => exact forall_mem_appendText hprint hpending s
    | running => exact hpending
    | _ => exact List.forall_mem_append.mpr ⟨hpending, List.forall_mem_singleton.mpr he⟩

end Event

/-! ### Commands and statements -/

/-- What a built-in command has to tell. -/
def Builtin.voice (m : Machine) (args : List Value) : Builtin → List Event
  | .print => [.print (Command.printed m.heap args)]
  | .cls => [.cls]
  | .help =>
    match args with
    | [] => [.print (Command.helpOverview m)]
    | .name s :: _ => [.print (Command.helpOn m (Text.fold s))]
    | .text s :: _ => [.print (Command.helpOn m (Text.fold s))]
    | _ => []
  | .env =>
    [.print (Command.bindings m (args.head?.elim "" fun v => Text.fold (m.heap.display v)))]
  | .list =>
    match args with
    | [] => [.print (Command.listed m 0 none)]
    | [first] =>
      match m.heap.toIndex first with
      | .ok first => [.print (Command.listed m first none)]
      | .error _ => []
    | [first, last] =>
      match m.heap.toIndex first, m.heap.toIndex last with
      | .ok first, .ok last => [.print (Command.listed m first (some last))]
      | _, _ => []
    | _ => []
  | .listTo =>
    match args with
    | [] => [.print (Command.listed m 0 none)]
    | [last] =>
      match m.heap.toIndex last with
      | .ok last => [.print (Command.listed m 0 (some last))]
      | .error _ => []
    | _ => []
  | .load =>
    match Command.fileName m.heap args with
    | .ok name => [.load name]
    | .error _ => []
  | .save =>
    match Command.fileName m.heap args with
    | .ok name => [.save name]
    | .error _ => []
  | _ => []

/-- What a command has to tell; one of the host tells the texts that it prints. -/
def CommandAction.voice (m : Machine) (args : List Value) : CommandAction → List Event
  | .builtin b => b.voice m args
  | .host handler =>
    match handler m.heap args with
    | .ok requests => (requests.filterMap HostRequest.text?).map .print
    | .error _ => []

/-- What there is to tell after an action, if it does not fail. -/
def Action.after {α : Type} (x : Action α) (voice : α → Machine → List Event) (m : Machine) :
    List Event :=
  match x.run m with
  | (.ok a, n) => voice a n
  | (.error _, _) => []

/-- What a statement has to tell, unless it fails. -/
def Stmt.voice : Stmt Address → Machine → List Event
  | .command _ name args literal, m =>
    match m.commands[name]? with
    | some c =>
      (Action.naming literal (Action.evalArgs args)).after (fun args n => c.action.voice n args) m
    | none => []
  | .when _ condition taken, m =>
    (Action.eval condition).after (fun v n => if v.isTruthy then taken.voice n else []) m
  | .choose _ condition taken otherwise, m =>
    (Action.eval condition).after
      (fun v n => if v.isTruthy then taken.voice n else otherwise.voice n) m
  | _, _ => []

namespace Action

variable {α β : Type}

/-- A machine that was told some events more: they come behind those that waited. -/
structure Told (m : Machine) (events : List Event) (n : Machine) : Prop where
  pending : n.pending = events.foldl Event.hear m.pending
  outputs : n.outputs = m.outputs + events.countP Event.isOutput

theorem Told.nothing {m n : Machine} (hpending : n.pending = m.pending)
    (houtputs : n.outputs = m.outputs) : Told m [] n :=
  ⟨hpending, houtputs⟩

/-- An action that tells the host what `voice` says, or nothing if it fails. -/
def Voices (x : Action α) (voice : Machine → List Event) : Prop :=
  ∀ m, match x.run m with
    | (.ok _, n) => Told m (voice m) n
    | (.error _, n) => Told m [] n

theorem Within.told {x : Action α} (hx : Within .outer x) (m : Machine) :
    Told m [] (x.run m).2 := by
  obtain ⟨g, -, hg⟩ := hx
  rw [hg]
  exact .nothing rfl rfl

theorem Within.voices {x : Action α} (hx : Within .outer x) : Voices x fun _ => [] := by
  intro m
  have htold := hx.told m
  revert htold
  rcases x.run m with ⟨r, n⟩
  cases r with
  | ok a => exact id
  | error e => exact id

namespace Voices

/-- What is told behind a silent action is told as if it were the first. -/
theorem of_bind {x : Action α} {k : α → Action β} {voice : α → Machine → List Event}
    (hx : Within .outer x) (hk : ∀ a, Voices (k a) (voice a)) :
    Voices (x >>= k) (x.after voice) := by
  intro m
  have htold := hx.told m
  rw [run_bind, after]
  revert htold
  rcases x.run m with ⟨r, n⟩
  rintro ⟨hpending, houtputs⟩
  cases r with
  | error e => exact ⟨hpending, houtputs⟩
  | ok a =>
    have hthen := hk a n
    revert hthen
    dsimp only
    rcases (k a).run n with ⟨r, n'⟩
    cases r with
    | ok b =>
      rintro ⟨hpending', houtputs'⟩
      exact ⟨hpending'.trans (hpending ▸ rfl), houtputs'.trans (houtputs ▸ rfl)⟩
    | error e =>
      rintro ⟨hpending', houtputs'⟩
      exact ⟨hpending'.trans hpending, houtputs'.trans houtputs⟩

theorem of_get {k : Machine → Action α} {voice : Machine → Machine → List Event}
    (hk : ∀ m, Voices (k m) (voice m)) : Voices (get >>= k) fun m => voice m m :=
  fun m => hk m m

theorem of_except {x : Except Error α} {k : α → Action β} {voice : α → Machine → List Event}
    (hk : ∀ a, Voices (k a) (voice a)) : Voices (ofExcept x >>= k) fun m => match x with
      | .ok a => voice a m
      | .error _ => [] := by
  intro m
  cases x with
  | ok a => exact hk a m
  | error e => exact .nothing rfl rfl

theorem of_located (pos : Pos) {x : Action α} {voice : Machine → List Event}
    (hx : Voices x voice) : Voices (located pos x) voice := by
  intro m
  have htold := hx m
  rw [run_located]
  revert htold
  rcases x.run m with ⟨r, n⟩
  cases r with
  | ok a => exact id
  | error e => exact id

theorem of_print (text : Machine → String) :
    Voices (modify fun m => m.print (text m) : Action Unit) fun m => [.print (text m)] :=
  fun _ => ⟨rfl, rfl⟩

theorem congr {x : Action α} {voice voice' : Machine → List Event} (hx : Voices x voice)
    (h : ∀ m, voice m = voice' m) : Voices x voice' := by
  obtain rfl : voice = voice' := funext h
  exact hx

end Voices

theorem voices_help (args : List Value) : Voices (help args) fun m => Builtin.voice m args .help := by
  unfold help
  split
  · exact .of_print _
  · exact .of_print _
  · exact .of_print _
  · rename_i v _ hname htext
    have hcomplain : Voices (get >>= fun m => throw (.typeMismatch (m.heap.display v ++
        " is not a name")) : Action Unit) fun _ => [] :=
      .of_get fun m => (Within.of_throw _).voices
    refine hcomplain.congr fun m => ?_
    cases v with
    | name s => exact (hname s rfl).elim
    | text s => exact (htext s rfl).elim
    | _ => rfl

theorem voices_lineNumber {k : Nat → Action α} {voice : Nat → Machine → List Event} (v : Value)
    (hk : ∀ n, Voices (k n) (voice n)) : Voices (lineNumber v >>= k) fun m =>
      match m.heap.toIndex v with
      | .ok n => voice n m
      | .error _ => [] :=
  (Voices.of_bind (within_lineNumber v).to_outer hk).congr fun m => by
    have hrun : (lineNumber v).run m = (m.heap.toIndex v, m) := rfl
    rw [after, hrun]
    cases m.heap.toIndex v <;> rfl

theorem voices_list (args : List Value) : Voices (list args) fun m => Builtin.voice m args .list := by
  unfold list
  split
  · exact .of_print _
  · exact voices_lineNumber _ fun first => .of_print _
  · refine (voices_lineNumber _ fun first => voices_lineNumber _ fun last =>
      .of_print fun m => Command.listed m first (some last)).congr fun m => ?_
    dsimp only [Builtin.voice]
    cases m.heap.toIndex _ with
    | error e => rfl
    | ok first => cases m.heap.toIndex _ <;> rfl
  · rename_i hnil hone htwo
    refine (Within.of_throw _).voices.congr fun m => ?_
    match args with
    | [] => exact absurd rfl hnil
    | [first] => exact absurd rfl (hone first)
    | [first, last] => exact absurd rfl (htwo first last)
    | _ :: _ :: _ :: _ => rfl

theorem voices_listTo (args : List Value) :
    Voices (listTo args) fun m => Builtin.voice m args .listTo := by
  unfold listTo
  split
  · exact .of_print _
  · exact voices_lineNumber _ fun last => .of_print _
  · rename_i hnil hone
    refine (Within.of_throw _).voices.congr fun m => ?_
    match args with
    | [] => exact absurd rfl hnil
    | [last] => exact absurd rfl (hone last)
    | _ :: _ :: _ => rfl

theorem voices_report (args : List Value) {report : String → Event}
    (hreport : ∀ name, (report name).isMark) (hquiet : ∀ name, (report name).isOutput = false) :
    Voices (do
      let name ← ofExcept (Command.fileName (← get).heap args)
      modify (·.pushEvent (report name)) : Action Unit) fun m =>
      match Command.fileName m.heap args with
      | .ok name => [report name]
      | .error _ => [] := by
  have hpush (name : String) : Voices (modify (·.pushEvent (report name)) : Action Unit)
      fun _ => [report name] := by
    intro m
    refine ⟨(Event.hear_of_isMark (hreport name) _).symm, ?_⟩
    rw [List.countP_singleton, hquiet]
    rfl
  refine (Voices.of_get fun m => .of_except hpush).congr fun m => ?_
  cases Command.fileName m.heap args <;> rfl

theorem voices_builtin (args : List Value) (b : Builtin) :
    Voices (builtin args b) fun m => b.voice m args := by
  cases b with
  | print => exact .of_print _
  | cls => exact fun _ => ⟨rfl, rfl⟩
  | help => exact voices_help args
  | env => exact .of_print _
  | list => exact voices_list args
  | listTo => exact voices_listTo args
  | load => exact voices_report args (fun _ => rfl) fun _ => rfl
  | save => exact voices_report args (fun _ => rfl) fun _ => rfl
  | sleep => exact (within_sleep args).outer.voices
  | poke => exact (within_poke args).to_outer.voices
  | cont => exact within_resume.outer.voices
  | input => exact (within_input args).outer.voices
  | run =>
    refine Within.voices (.of_get (fun _ => rfl) fun m => ?_)
    exact .of_bind (.of_ofExcept _) fun label => (within_restart label).outer
  | _ => exact fun _ => .nothing rfl rfl

theorem countP_isOutput_map_print (texts : List String) :
    (texts.map Event.print).countP Event.isOutput = texts.length := by
  rw [List.countP_map, List.countP_eq_length]
  exact fun _ _ => rfl

theorem foldl_hear_map_print (texts : List String) (pending : List Event) :
    (texts.map Event.print).foldl Event.hear pending = texts.foldl Event.appendText pending :=
  List.foldl_map

theorem voices_perform (c : CommandAction) (args : List Value) :
    Voices (perform c args) fun m => c.voice m args := by
  cases c with
  | builtin b => exact voices_builtin args b
  | host handler =>
    have hgrant (requests : List HostRequest) :
        Voices (modify fun m => requests.foldl (fun m r => grant r m) m : Action Unit)
          fun _ => (requests.filterMap HostRequest.text?).map .print := by
      intro m
      change Told m _ (requests.foldl (fun m r => grant r m) m)
      rw [foldl_grant]
      refine ⟨?_, ?_⟩
      · rw [foldl_hear_map_print]
        exact List.append_nil _
      · rw [countP_isOutput_map_print]
        rfl
    refine (Voices.of_get fun m => .of_except hgrant).congr fun m => ?_
    dsimp only [CommandAction.voice]
    cases handler m.heap args <;> rfl

theorem voices_exec (s : Stmt Address) : Voices (exec s) s.voice := by
  induction s with
  | command pos name args literal =>
    have hperform (c : Command) := Voices.of_bind (within_namedArgs args literal).to_outer
      fun args => (voices_perform c.action args).of_located pos
    intro m
    rw [exec, command, run_bind, run_get]
    dsimp only
    cases hcommand : m.commands[name]? with
    | none => exact .nothing rfl rfl
    | some c =>
      simp only [Stmt.voice, hcommand]
      exact hperform c m
  | when pos condition taken ih =>
    have hbranch (v : Value) : Voices (if v.isTruthy then exec taken else pure ())
        fun m => if v.isTruthy then taken.voice m else [] := by
      cases v.isTruthy with
      | true => exact ih
      | false => exact (Within.of_pure ()).voices
    exact .of_bind (within_eval condition).to_outer hbranch
  | choose pos condition taken otherwise ih₁ ih₂ =>
    have hbranch (v : Value) : Voices (if v.isTruthy then exec taken else exec otherwise)
        fun m => if v.isTruthy then taken.voice m else otherwise.voice m := by
      cases v.isTruthy with
      | true => exact ih₁
      | false => exact ih₂
    exact .of_bind (within_eval condition).to_outer hbranch
  | _ => exact (within_plain rfl).voices

end Action

/-! ### Everything told is news, and most commands make one output at most -/

/-- Whether a command makes at most one output each time; one of the host may print more often. -/
def CommandAction.Terse : CommandAction → Prop
  | .builtin _ => True
  | .host handler => ∀ heap args requests, handler heap args = .ok requests →
    (requests.filterMap HostRequest.text?).length ≤ 1

/-- Events that a statement tells: none is an error, and at most one of them is an output if the
commands are terse. -/
structure Event.Fit (terse : Prop) (events : List Event) : Prop where
  calm : ∀ e ∈ events, e.isCalm
  outputs : terse → events.countP isOutput ≤ 1

namespace Event.Fit

variable {terse : Prop}

theorem nil : Fit terse [] :=
  ⟨List.forall_mem_nil _, fun _ => Nat.zero_le 1⟩

theorem single {e : Event} (he : e.isCalm) : Fit terse [e] :=
  ⟨by simpa using he, fun _ => List.countP_le_length⟩

end Event.Fit

open Event (Fit)

theorem Builtin.fit_voice (terse : Prop) (m : Machine) (args : List Value) (b : Builtin) :
    Fit terse (b.voice m args) := by
  fun_cases Builtin.voice m args b <;> first | exact .single rfl | exact .nil

theorem CommandAction.fit_voice (c : CommandAction) (m : Machine) (args : List Value) :
    Fit c.Terse (c.voice m args) := by
  cases c with
  | builtin b => exact b.fit_voice _ m args
  | host handler =>
    rw [voice]
    cases hrequests : handler m.heap args with
    | error e => exact .nil
    | ok requests =>
      refine ⟨?_, fun hterse => ?_⟩
      · exact List.forall_mem_map.mpr fun _ _ => rfl
      · rw [Action.countP_isOutput_map_print]
        exact hterse _ _ _ hrequests

/-- Whether all commands of a machine are terse. -/
def Machine.Terse (m : Machine) : Prop :=
  ∀ (name : String) (c : Command), m.commands[name]? = some c → c.action.Terse

theorem Machine.Terse.of_commands {m n : Machine} (h : m.Terse) (hcommands : n.commands = m.commands) :
    n.Terse := by
  intro name c hc
  rw [hcommands] at hc
  exact h name c hc

theorem Action.fit_after {α : Type} {terse : Prop} {x : Action α}
    {voice : α → Machine → List Event} {m : Machine} (h : ∀ a, Fit terse (voice a (x.run m).2)) :
    Fit terse (x.after voice m) := by
  unfold after
  revert h
  rcases x.run m with ⟨r, n⟩
  cases r with
  | ok a => exact fun h => h a
  | error e => exact fun _ => .nil

theorem Action.Within.terse_run {α : Type} {x : Action α} (hx : Within .outer x) {m : Machine}
    (hm : m.Terse) : (x.run m).2.Terse := by
  obtain ⟨g, hfixed, hg⟩ := hx
  rw [hg]
  exact hm.of_commands (congrArg Fixtures.commands (hfixed (Aspect.outer.see m)))

theorem Stmt.fit_voice (s : Stmt Address) (m : Machine) : Fit m.Terse (s.voice m) := by
  induction s generalizing m with
  | command pos name args literal =>
    rw [voice]
    cases hcommand : m.commands[name]? with
    | none => exact .nil
    | some c =>
      refine Action.fit_after fun values => ?_
      have hfit := c.action.fit_voice ((Action.naming literal (Action.evalArgs args)).run m).2 values
      exact ⟨hfit.calm, fun hterse => hfit.outputs (hterse name c hcommand)⟩
  | when pos condition taken ih =>
    refine Action.fit_after fun v => ?_
    have hfit := ih ((Action.eval condition).run m).2
    split
    · exact ⟨hfit.calm, fun h => hfit.outputs ((Action.within_eval condition).to_outer.terse_run h)⟩
    · exact .nil
  | choose pos condition taken otherwise ih₁ ih₂ =>
    refine Action.fit_after fun v => ?_
    have hfit₁ := ih₁ ((Action.eval condition).run m).2
    have hfit₂ := ih₂ ((Action.eval condition).run m).2
    have hterse := (Action.within_eval condition).to_outer.terse_run (m := m)
    split
    · exact ⟨hfit₁.calm, fun h => hfit₁.outputs (hterse h)⟩
    · exact ⟨hfit₂.calm, fun h => hfit₂.outputs (hterse h)⟩
  | _ => exact .nil

/-! ### Turns -/

namespace Machine

variable {m : Machine}

/-- What the next turn's statement tells, or how it fails. -/
def spoken (m : Machine) (s : Stmt Address) : Except Error (List Event) :=
  ((Action.exec s).run (m.beginning s)).1.map fun _ => s.voice (m.beginning s)

/-- What the next turn tells: the line of the statement if it is traced, and then what the
statement tells or how it failed. -/
def voice (m : Machine) : List Event :=
  match m.code with
  | none => []
  | some block =>
    match block.statements[m.pc]? with
    | none => []
    | some s => (Utterance.traced m.tracing s.pos).map .print ++
      match m.spoken s with
      | .ok events => events
      | .error e => [.error ((e.locatedAt s.pos).withSource block.source)]

/-- How many output operations the next turn makes. Tracing counts as none. -/
def effort (m : Machine) : Nat :=
  match m.upcoming? with
  | none => 0
  | some s =>
    match m.spoken s with
    | .ok events => events.countP Event.isOutput
    | .error _ => 0

theorem beginning_pending (m : Machine) (s : Stmt Address) : (m.beginning s).pending =
    ((Utterance.traced m.tracing s.pos).map Event.print).foldl Event.hear m.pending := by
  unfold beginning trace Utterance.traced
  cases m.tracing <;> rfl

theorem beginning_outputs (m : Machine) (s : Stmt Address) :
    (m.beginning s).outputs = m.outputs := by
  unfold beginning trace
  split <;> rfl

theorem beginning_terse (h : m.Terse) (s : Stmt Address) : (m.beginning s).Terse := by
  unfold beginning trace
  split <;> exact h

theorem abort_pending (m : Machine) (e : Error) (block : Block) (pos : Pos) :
    (m.abort e block pos).pending =
      m.pending ++ [.error ((e.locatedAt pos).withSource block.source)] := by
  unfold abort
  split <;> rfl

theorem abort_outputs (m : Machine) (e : Error) (block : Block) (pos : Pos) :
    (m.abort e block pos).outputs = m.outputs := by
  unfold abort
  split <;> rfl

/-- A turn tells the host its voice, behind everything that waits, and counts its outputs. -/
theorem turn_told (m : Machine) :
    m.turn.pending = m.voice.foldl Event.hear m.pending ∧ m.turn.outputs = m.outputs + m.effort := by
  cases hcode : m.code with
  | none =>
    rw [turn_of_none hcode]
    simp only [voice, effort, upcoming?, hcode]
    exact ⟨rfl, rfl⟩
  | some block =>
    cases hs : block.statements[m.pc]? with
    | none =>
      rw [turn_of_end hcode hs]
      simp only [voice, effort, upcoming?, hcode, hs, Option.bind_some]
      exact ⟨rfl, rfl⟩
    | some s =>
      have htold := Action.voices_exec s (m.beginning s)
      rw [turn_of_beginning hcode hs]
      simp only [voice, effort, upcoming?, hcode, hs, Option.bind_some, spoken]
      revert htold
      rcases (Action.exec s).run (m.beginning s) with ⟨r, n⟩
      rw [List.foldl_append, ← beginning_pending, ← beginning_outputs m s]
      cases r with
      | ok a => exact fun htold => ⟨htold.pending, htold.outputs⟩
      | error e =>
        intro htold
        dsimp only
        rw [abort_pending, abort_outputs]
        exact ⟨congrArg (· ++ _) htold.pending, htold.outputs⟩

/-- A turn tells of nothing but what its statement has to tell and of how that failed. -/
theorem mem_voice {event : Event} (h : event ∈ m.voice) : event.isCalm ∨
    ∃ block s e, m.code = some block ∧ block.statements[m.pc]? = some s ∧
      ((Action.exec s).run (m.beginning s)).1 = .error e ∧
      event = .error ((e.locatedAt s.pos).withSource block.source) := by
  unfold voice at h
  split at h
  · cases h
  · rename_i block hcode
    split at h
    · cases h
    · rename_i s hs
      rcases List.mem_append.mp h with h | h
      · obtain ⟨text, -, rfl⟩ := List.mem_map.mp h
        exact .inl rfl
      · unfold spoken at h
        cases hexec : ((Action.exec s).run (m.beginning s)).1 with
        | ok a =>
          rw [hexec] at h
          exact .inl ((s.fit_voice _).calm event h)
        | error e =>
          rw [hexec] at h
          exact .inr ⟨block, s, e, hcode, hs, hexec, List.mem_singleton.mp h⟩

theorem isNews_voice : ∀ e ∈ m.voice, e.isNews := by
  intro event hevent
  rcases mem_voice hevent with hcalm | ⟨_, _, _, _, _, _, rfl⟩
  · exact Event.isNews_of_isCalm hcalm
  · rfl

theorem effort_le_one (h : m.Terse) : m.effort ≤ 1 := by
  unfold effort
  split
  · exact Nat.zero_le 1
  · rename_i s _
    unfold spoken
    cases ((Action.exec s).run (m.beginning s)).1 with
    | ok a => exact (s.fit_voice _).outputs (beginning_terse h s)
    | error e => exact Nat.zero_le 1

end Machine

end LineBasic
