import LineBasic.Proofs.Turns

/-!
# What statements do to a machine's footing

The footing of a machine is where it stands, where calls return to, what was suspended, and the
programs that it knows. Most statements leave it alone. What the others can do to it is said once,
by one relation with a case for each way; whatever is to hold of every footing is then a matter of
these cases.
-/

namespace LineBasic

set_option autoImplicit false

/-- What a machine knows of places. -/
structure Footing where
  code : Option Block
  pc : Address
  returns : BoundedStack Frame
  resume : Option (Frame × Status)
  status : Status
  program : Program

def Snapshot.footing (s : Snapshot) : Footing :=
  ⟨s.code, s.pc, s.returns, s.resume, s.status, s.program⟩

namespace Footing

def goTo (f : Footing) (frame : Frame) : Footing :=
  { f with code := some frame.block, pc := frame.addr }

/-- A program has ended, and every program that it was entered from. -/
def ended (f : Footing) : Footing :=
  { f with code := none, returns := f.returns.clear, resume := none, status := .stopped }

/-- The last statement of a block was run. What the block was entered from can be continued. -/
def fallenOff (f : Footing) (block : Block) : Footing :=
  { f with
    code := none, status := .stopped
    resume := match f.resume, block.parent with
      | none, some parent => some (parent, .running)
      | resume, _ => resume }

/-- A program has failed. Calls are forgotten unless they belong to a suspended program. -/
def failed (f : Footing) : Footing :=
  { f with
    code := none, status := .stopped
    returns := if f.resume.isNone then f.returns.clear else f.returns }

/-- Everything that belongs to the old program is dropped. -/
def cleared (f : Footing) : Footing :=
  { f with returns := f.returns.clear, resume := none, program := f.program.clear }

end Footing

/-- What a statement is there to do. -/
inductive Deed where
  | compute
  /-- To go on with another pass of a loop, or to leave it, at one of these addresses. -/
  | loop (goals : List Address)
  | jump
  | call
  | return
  | finish
  | perform (action : CommandAction)
  /-- To run a command that nobody knows. -/
  | miss

/-- What a statement may come down to. -/
def Stmt.deeds (commands : Std.TreeMap String Command) : Stmt Address → List Deed
  | .command _ name _ _ => [commands[name]?.elim .miss fun c => .perform c.action]
  | .when _ _ taken => .compute :: taken.deeds commands
  | .choose _ _ taken otherwise => taken.deeds commands ++ otherwise.deeds commands
  | .goto .. | .onGoto .. => [.jump]
  | .gosub .. | .onGosub .. => [.call]
  | .next _ header => [.loop [header.body]]
  | .do _ _ header => [.loop [header.exit]]
  | .loop _ _ header => [.loop [header.top]]
  | .leave _ exit => [.loop [exit]]
  | .return _ => [.return]
  | .finish _ => [.finish]
  | _ => [.compute]

/-- What a statement can make of a footing, and whether it succeeds. -/
inductive Footing.Shift : Deed → (ok : Bool) → Footing → Footing → Prop where
  | fail (d : Deed) (f : Footing) : Shift d false f f
  | compute (f : Footing) : Shift .compute true f f
  | pass (goals : List Address) (f : Footing) : Shift (.loop goals) true f f
  | goTo {goals : List Address} {addr : Address} (haddr : addr ∈ goals) (f : Footing) :
    Shift (.loop goals) true f { f with pc := addr }
  | jump {f : Footing} {name : String} {frame : Frame}
    (hlabel : f.program.label? name = some frame) : Shift .jump true f (f.goTo frame)
  | call {f : Footing} {name : String} {frame : Frame} {block : Block}
    (hlabel : f.program.label? name = some frame) (hcode : f.code = some block)
    (hroom : f.returns.size < f.returns.limit) :
    Shift .call true f { f.goTo frame with returns := f.returns.add ⟨block, f.pc⟩ }
  | return {f : Footing} {frame : Frame} (htop : f.returns.top? = some frame) :
    Shift .return true f { f.goTo frame with returns := f.returns.pop }
  | returnOut {f : Footing} (htop : f.returns.top? = none) : Shift .return true f f.ended
  | finish (f : Footing) : Shift .finish true f f.ended
  | act {c : CommandAction} (hstays : c.stays) (hdeparts : c.departs = false) (f : Footing) :
    Shift (.perform c) true f f
  | ask (prompt : String) (targets : List String) (f : Footing) :
    Shift (.perform (.builtin .input)) true f { f with status := .input prompt targets }
  | pause (wake : Nat) (f : Footing) :
    Shift (.perform (.builtin .sleep)) true f { f with status := .asleep wake }
  | new (f : Footing) :
    Shift (.perform (.builtin .new)) true f { f with resume := none, program := f.program.clear }
  | resume {f : Footing} {frame : Frame} {status : Status} (h : f.resume = some (frame, status)) :
    Shift (.perform (.builtin .cont)) true f { f.goTo frame with status := status, resume := none }
  | restart {f : Footing} {source : String} {block : Block} {program : Program} {data : DataQueue}
    {frame : Frame} (hcompile : f.program.clear.compile {} source none = .ok (block, program, data))
    (hframe : frame = ⟨block, 0⟩ ∨ ∃ name, program.label? name = some frame) :
    Shift (.perform (.builtin .run)) true f
      { f.cleared.goTo frame with status := .running, program := program }
  | restartFails (f : Footing) : Shift (.perform (.builtin .run)) false f f.cleared

namespace Action

variable {α : Type}

theorem Within.ground {x : Action α} (hx : Within .rooted x) (m : Machine) :
    (x.run m).2.footing = m.footing ∧ (x.run m).2.commands = m.commands ∧
      (x.run m).2.literalNames = m.literalNames := by
  obtain ⟨g, hfix, hg⟩ := hx
  rw [hg]
  have hground : (g m.sight).2.toGround = m.sight.toGround := hfix m.sight
  have hresume := congrArg Ground.resume hground
  have hprogram := congrArg Ground.program hground
  refine ⟨?_, congrArg (·.commands) hground, congrArg Ground.literalNames hground⟩
  change Footing.mk m.code m.pc m.returns (g m.sight).2.resume m.status (g m.sight).2.program = _
  rw [hresume, hprogram]
  rfl

theorem Acts.ground {x : Action α} (hx : Acts .still x) (m : Machine) :
    (x.run m).2.footing = m.footing ∧ (x.run m).2.commands = m.commands ∧
      (x.run m).2.literalNames = m.literalNames := by
  obtain ⟨g, hfix, -, hg⟩ := hx
  have hsilent : Within .rooted (ExceptT.mk fun n => ((g n.sight).1, n.withSight (g n.sight).2.1) :
      Action α) :=
    ⟨fun s => ((g s).1, (g s).2.1), fun s => congrArg Prod.fst (hfix s), fun _ => rfl⟩
  rw [hg]
  exact hsilent.ground m

/-- What can become of a machine by doing one of some deeds. Plain names stand for themselves only
while the arguments of a command are evaluated. -/
structure Shifted (deeds : List Deed) (ok : Bool) (m n : Machine) : Prop where
  footing : ∃ d ∈ deeds, Footing.Shift d ok m.footing n.footing
  names : m.literalNames = false → n.literalNames = false

theorem Shifted.single {d : Deed} {ok : Bool} {m n : Machine}
    (h : Footing.Shift d ok m.footing n.footing)
    (hnames : m.literalNames = false → n.literalNames = false) : Shifted [d] ok m n :=
  ⟨⟨d, List.mem_cons_self, h⟩, hnames⟩

/-- An action that does one of some deeds, with certain commands. -/
def Shifts (commands : Std.TreeMap String Command) (deeds : List Deed) (x : Action Unit) : Prop :=
  ∀ m : Machine, m.commands = commands → Shifted deeds (x.run m).1.isOk m (x.run m).2

namespace Shifts

variable {commands : Std.TreeMap String Command} {deeds : List Deed} {d : Deed}

theorem of_shift {x : Action Unit}
    (hx : ∀ m : Machine, Footing.Shift d (x.run m).1.isOk m.footing (x.run m).2.footing)
    (hnames : ∀ m, (x.run m).2.literalNames = m.literalNames) : Shifts commands [d] x :=
  fun m _ => .single (hx m) fun hm => (hnames m).trans hm

theorem of_kept {x : Action Unit} (hd : ∀ f, Footing.Shift d true f f)
    (hx : ∀ m, (x.run m).2.footing = m.footing ∧ (x.run m).2.commands = m.commands ∧
      (x.run m).2.literalNames = m.literalNames) : Shifts commands [d] x := by
  refine of_shift (fun m => ?_) fun m => (hx m).2.2
  rw [(hx m).1]
  cases (x.run m).1 with
  | ok _ => exact hd _
  | error e => exact .fail d _

theorem of_throw (e : Error) : Shifts commands [d] (throw e) :=
  of_shift (fun _ => .fail d _) fun _ => rfl

theorem mono {deeds' : List Deed} (hdeeds : deeds ⊆ deeds') {x : Action Unit}
    (hx : Shifts commands deeds x) : Shifts commands deeds' x := by
  intro m hm
  obtain ⟨⟨d, hd, hshift⟩, hnames⟩ := hx m hm
  exact ⟨⟨d, hdeeds hd, hshift⟩, hnames⟩

theorem of_bind {x : Action α} {k : α → Action Unit} (hdeeds : deeds ≠ []) (hx : Within .rooted x)
    (hk : ∀ a, Shifts commands deeds (k a)) : Shifts commands deeds (x >>= k) := by
  intro m hm
  obtain ⟨hfooting, hcommands, hnames⟩ := hx.ground m
  rw [run_bind]
  revert hfooting hcommands hnames
  rcases x.run m with ⟨r, n⟩
  intro hfooting hcommands hnames
  dsimp only at hfooting hcommands hnames
  cases r with
  | ok a =>
    obtain ⟨hshift, hkept⟩ := hk a n (hcommands.trans hm)
    rw [hfooting] at hshift
    exact ⟨hshift, fun hm => hkept (hnames.trans hm)⟩
  | error e =>
    obtain ⟨d, hd⟩ := List.exists_mem_of_ne_nil deeds hdeeds
    exact ⟨⟨d, hd, hfooting ▸ .fail d _⟩, fun hm => hnames.trans hm⟩

theorem of_get {k : Machine → Action Unit}
    (hk : ∀ m, m.commands = commands → Shifts commands deeds (k m)) :
    Shifts commands deeds (get >>= k) :=
  fun m hm => hk m hm m hm

theorem of_located (pos : Pos) {x : Action Unit} (hx : Shifts commands deeds x) :
    Shifts commands deeds (located pos x) := by
  intro m hm
  have hshift := hx m hm
  rw [run_located]
  revert hshift
  rcases x.run m with ⟨r, n⟩
  cases r with
  | ok _ => exact id
  | error e => exact id

theorem of_test {goals : List Address} {x : Action Bool} (hx : Within .rooted x)
    {leaves : Bool → Prop} [DecidablePred leaves] {addr : Address} (haddr : addr ∈ goals) :
    Shifts commands [.loop goals] (x >>= fun b =>
      if leaves b then modify fun m => { m with pc := addr } else pure ()) := by
  refine of_bind (List.cons_ne_nil _ _) hx fun b => ?_
  split
  · exact of_shift (fun _ => .goTo haddr _) fun _ => rfl
  · exact of_kept (.pass goals) (Within.of_pure ()).ground

end Shifts

/-! ### Jumps and calls -/

/-- An action that finds places of labels only. -/
def Labelled (x : Action Frame) : Prop :=
  ∀ m frame n, x.run m = (.ok frame, n) → ∃ name, m.program.label? name = some frame

theorem labelled_labelFrame (name : String) : Labelled (labelFrame name) := by
  intro m frame n h
  rw [labelFrame, run_bind, run_get] at h
  dsimp only at h
  split at h
  · rename_i found hfound
    cases h
    exact ⟨name, hfound⟩
  · cases h

theorem Labelled.of_bind {x : Action α} {k : α → Action Frame} (hx : Within .rooted x)
    (hk : ∀ a, Labelled (k a)) : Labelled (x >>= k) := by
  intro m frame n h
  obtain ⟨a, m₁, hrun, hthen⟩ := run_bind_eq_ok h
  have hfooting := (hx.ground m).1
  rw [hrun] at hfooting
  have hprogram : m₁.program = m.program := congrArg Footing.program hfooting
  rw [← hprogram]
  exact hk a m₁ frame n hthen

theorem Labelled.of_located {x : Action Frame} (hx : Labelled x) (pos : Pos) :
    Labelled (located pos x) := by
  intro m frame n h
  rw [run_located] at h
  rcases hrun : x.run m with ⟨r, m₁⟩
  rw [hrun] at h
  cases r with
  | ok found =>
    cases h
    exact hx m frame _ hrun
  | error e => cases h

theorem labelled_target (e : Expr) : Labelled (target e) :=
  .of_bind (within_labelOf e).rooted fun name => (labelled_labelFrame name).of_located e.pos

theorem labelled_choose (index : Expr) (labels : List String) : Labelled (choose index labels) := by
  refine .of_bind (within_evalNumber index).rooted fun x => ?_
  dsimp only
  split
  · exact labelled_labelFrame _
  · exact fun _ _ _ h => nomatch h

theorem Shifts.of_labelled {commands : Std.TreeMap String Command} {d : Deed} {x : Action Frame}
    (hx : Within .still x) (hlabels : Labelled x) {k : Frame → Action Unit}
    (hk : ∀ (m : Machine) (name : String) (frame : Frame), m.program.label? name = some frame →
      Shifted [d] ((k frame).run m).1.isOk m ((k frame).run m).2) :
    Shifts commands [d] (x >>= k) := by
  intro m _
  obtain ⟨hfooting, -, hkept⟩ := hx.rooted.ground m
  have hfound := hlabels m
  rw [run_bind]
  revert hfooting hkept hfound
  rcases x.run m with ⟨r, n⟩
  intro hfooting hkept hfound
  dsimp only at hfooting hkept
  cases r with
  | error e => exact .single (hfooting ▸ .fail d _) fun hm => hkept.trans hm
  | ok frame =>
    obtain ⟨name, hlabel⟩ := hfound frame n rfl
    have hprogram : n.program = m.program := congrArg Footing.program hfooting
    obtain ⟨hshift, hnames⟩ := hk n name frame (hprogram ▸ hlabel)
    exact ⟨hfooting ▸ hshift, fun hm => hnames (hkept.trans hm)⟩

/-- A call that finds its target pushes the place after it, unless the stack is full. -/
theorem run_call {m : Machine} {block : Block} (hcode : m.code = some block) (frame : Frame) :
    (call frame).run m =
      if m.returns.limit ≤ m.returns.size then
        (.error { code := .outOfMemory, detail := m.returns.overflow }, m)
      else
        (.ok (), { m with
          returns := m.returns.add ⟨block, m.pc⟩
          code := some frame.block, pc := frame.addr }) := by
  rw [call, run_bind, run_get]
  dsimp only
  rw [hcode]
  dsimp only
  by_cases hfull : m.returns.limit ≤ m.returns.size
  · rw [BoundedStack.overflow?, if_pos hfull, if_pos hfull]
    rfl
  · rw [BoundedStack.overflow?, if_neg hfull, if_neg hfull]
    rfl

theorem run_call_of_none {m : Machine} (hcode : m.code = none) (frame : Frame) :
    (call frame).run m = (.error { code := .internal, detail := "NO CODE TO RETURN TO" }, m) := by
  rw [call, run_bind, run_get]
  dsimp only
  rw [hcode]
  rfl

theorem run_goBack {m : Machine} {frame : Frame} (h : m.returns.top? = some frame) :
    goBack.run m = (.ok (), { m with
      returns := m.returns.pop, code := some frame.block, pc := frame.addr }) := by
  rw [goBack, run_bind, run_get]
  dsimp only
  rw [h]
  rfl

theorem run_goBack_of_none {m : Machine} (h : m.returns.top? = none) :
    goBack.run m = terminate.run m := by
  rw [goBack, run_bind, run_get]
  dsimp only
  rw [h]

section

variable {commands : Std.TreeMap String Command}

theorem shifts_jump {x : Action Frame} (hx : Within .still x) (hlabels : Labelled x) :
    Shifts commands [.jump] (x >>= jump) :=
  .of_labelled hx hlabels fun _ _ _ hlabel => .single (.jump hlabel) id

theorem shifts_call {x : Action Frame} (hx : Within .still x) (hlabels : Labelled x) :
    Shifts commands [.call] (x >>= call) := by
  refine .of_labelled hx hlabels fun m name frame hlabel => ?_
  cases hcode : m.code with
  | none =>
    rw [run_call_of_none hcode]
    exact .single (.fail _ _) id
  | some block =>
    rw [run_call hcode]
    split
    · exact .single (.fail _ _) id
    · rename_i hroom
      exact .single (.call hlabel hcode (Nat.lt_of_not_le hroom)) id

theorem shifts_goBack : Shifts commands [.return] goBack := by
  intro m _
  cases htop : m.returns.top? with
  | none =>
    rw [run_goBack_of_none htop]
    exact .single (.returnOut htop) id
  | some frame =>
    rw [run_goBack htop]
    exact .single (.return htop) id

/-! ### Commands -/

theorem shifts_sleep (args : List Value) :
    Shifts commands [.perform (.builtin .sleep)] (sleep args) := by
  unfold sleep
  split
  · refine .of_get fun m _ => .of_bind (List.cons_ne_nil _ _) (.of_ofExcept _) fun seconds => ?_
    refine .of_bind (List.cons_ne_nil _ _) (.of_ofExcept _) fun nanos => ?_
    exact .of_shift (fun _ => .pause _ _) fun _ => rfl
  · exact .of_throw _

theorem shifts_resume : Shifts commands [.perform (.builtin .cont)] resume := by
  intro m _
  rw [resume, run_bind, run_get]
  dsimp only
  split
  · rename_i frame status hresume
    exact .single (.resume hresume) id
  · exact .single (.fail _ _) id

theorem shifts_restart (label : Option String) :
    Shifts commands [.perform (.builtin .run)] (restart label) := by
  intro m _
  rw [restart, run_bind, run_mk]
  unfold Machine.compileListing Machine.compile
  dsimp only
  cases hread : m.program.clear.compile {} m.listing.source none with
  | error e => exact .single (.restartFails _) id
  | ok r =>
    obtain ⟨block, program, data⟩ := r
    have hstart {frame : Frame}
        (hframe : frame = ⟨block, 0⟩ ∨ ∃ name, program.label? name = some frame) :=
      Footing.Shift.restart (f := m.footing) hread hframe
    cases label with
    | none => exact .single (hstart (.inl rfl)) id
    | some name =>
      dsimp only [Option.bind_some]
      rw [run_modify]
      dsimp only
      cases hlabel : program.label? name with
      | none => exact .single (hstart (.inl rfl)) id
      | some frame => exact .single (hstart (.inr ⟨name, hlabel⟩)) id

theorem shifts_perform (c : CommandAction) (args : List Value) :
    Shifts commands [.perform c] (perform c args) := by
  have hkept (hstays : c.stays) (hdeparts : c.departs = false) :
      Shifts commands [.perform c] (perform c args) :=
    .of_kept (.act hstays hdeparts) (acts_perform_still hstays hdeparts args).ground
  cases c with
  | host handler => exact hkept rfl rfl
  | builtin b =>
    cases b with
    | input => exact .of_shift (fun _ => .ask _ _ _) fun _ => rfl
    | sleep => exact shifts_sleep args
    | new => exact .of_shift (fun _ => .new _) fun _ => rfl
    | run =>
      exact .of_get fun m _ => .of_bind (List.cons_ne_nil _ _) (.of_ofExcept _) fun label =>
        shifts_restart label
    | cont => exact shifts_resume
    | _ => exact hkept rfl rfl

theorem shifts_command (pos : Pos) (name : String) (args : Option Expr) (literalNames : Bool) :
    Shifts commands [commands[name]?.elim .miss fun c => .perform c.action]
      (command pos name args literalNames) := by
  refine .of_get fun m hm => ?_
  rw [hm]
  cases hcommand : commands[name]? with
  | none => exact .of_throw _
  | some c =>
    intro n hn
    -- the arguments are evaluated on the same footing, but for what plain names stand for
    obtain ⟨hfooting, hcommands, -⟩ :=
      (within_evalArgs args).rooted.ground { n with literalNames := literalNames }
    rw [run_bind, run_naming]
    revert hfooting hcommands
    rcases (evalArgs args).run { n with literalNames := literalNames } with ⟨r, n'⟩
    intro hfooting hcommands
    have hplace : n'.footing = n.footing := hfooting
    cases r with
    | error e => exact .single (hplace ▸ .fail _ n'.footing) fun _ => rfl
    | ok vs =>
      obtain ⟨hshift, hnames⟩ := (shifts_perform c.action vs).of_located pos
        { n' with literalNames := false } (hcommands.trans hn)
      exact ⟨hplace ▸ hshift, fun _ => hnames rfl⟩

end

/-! ### Statements -/

theorem deeds_ne_nil (commands : Std.TreeMap String Command) (s : Stmt Address) :
    s.deeds commands ≠ [] := by
  induction s with
  | choose pos condition taken otherwise ih _ =>
    rw [Stmt.deeds]
    exact List.append_ne_nil_of_left_ne_nil ih _
  | _ => exact List.cons_ne_nil _ _

theorem shifts_exec (commands : Std.TreeMap String Command) (s : Stmt Address) :
    Shifts commands (s.deeds commands) (exec s) := by
  induction s with
  | command pos name args literal => exact shifts_command pos name args literal
  | when pos condition taken ih =>
    refine .of_bind (List.cons_ne_nil _ _) (within_eval condition).rooted fun v => ?_
    split
    · exact ih.mono (List.subset_cons_self _ _)
    · exact (Shifts.of_kept .compute (Within.of_pure ()).ground).mono
        (List.cons_subset_cons _ (List.nil_subset _))
  | choose pos condition taken otherwise ih₁ ih₂ =>
    refine .of_bind (deeds_ne_nil commands _) (within_eval condition).rooted fun v => ?_
    rw [Stmt.deeds]
    split
    · exact ih₁.mono (List.subset_append_left _ _)
    · exact ih₂.mono (List.subset_append_right _ _)
  | goto pos e => exact shifts_jump (within_target e) (labelled_target e)
  | gosub pos e => exact shifts_call (within_target e) (labelled_target e)
  | onGoto pos index labels =>
    exact shifts_jump (within_choose index labels) (labelled_choose index labels)
  | onGosub pos index labels =>
    exact shifts_call (within_choose index labels) (labelled_choose index labels)
  | next pos header =>
    rw [exec, advanceLoop_eq]
    exact .of_test (within_anotherPass _ _ _ _).rooted List.mem_cons_self
  | «do» pos g header => exact .of_test (within_guard g).rooted List.mem_cons_self
  | loop pos g header => exact .of_test (within_guard g).rooted List.mem_cons_self
  | leave pos exit => exact .of_shift (fun _ => .goTo List.mem_cons_self _) fun _ => rfl
  | «return» pos => exact shifts_goBack
  | finish pos => exact .of_shift (fun _ => .finish _) fun _ => rfl
  | _ => exact .of_kept .compute (within_exec rfl).ground

end Action

/-! ### Turns -/

/-- What a turn of a machine can make of its footing. -/
inductive Footing.Turn (commands : Std.TreeMap String Command) : Footing → Footing → Prop where
  | idle {f : Footing} (hcode : f.code = none) : Turn commands f { f with status := .stopped }
  | fallOff {f : Footing} {block : Block} (hcode : f.code = some block)
    (hend : block.statements[f.pc]? = none) : Turn commands f (f.fallenOff block)
  | run {f f' : Footing} {block : Block} {s : Stmt Address} {d : Deed} (hcode : f.code = some block)
    (hs : block.statements[f.pc]? = some s) (hd : d ∈ s.deeds commands)
    (h : Shift d true { f with pc := f.pc + 1 } f') : Turn commands f f'
  | fail {f f' : Footing} {block : Block} {s : Stmt Address} {d : Deed} (hcode : f.code = some block)
    (hs : block.statements[f.pc]? = some s) (hd : d ∈ s.deeds commands)
    (h : Shift d false { f with pc := f.pc + 1 } f') : Turn commands f f'.failed

namespace Machine

/-- The machine that runs the statement of its turn. -/
def beginning (m : Machine) (s : Stmt Address) : Machine :=
  ({ m with pc := m.pc + 1 } : Machine).trace s.pos

theorem ground_beginning (m : Machine) (s : Stmt Address) :
    (m.beginning s).footing = { m.footing with pc := m.pc + 1 } ∧
      (m.beginning s).commands = m.commands ∧ (m.beginning s).literalNames = m.literalNames := by
  unfold beginning trace
  split <;> exact ⟨rfl, rfl, rfl⟩

theorem footing_abort (m : Machine) (e : Error) (block : Block) (pos : Pos) :
    (m.abort e block pos).footing = m.footing.failed := by
  have hresume : m.footing.resume = m.resume := rfl
  unfold abort Footing.failed
  dsimp only
  rw [hresume]
  split <;> rfl

theorem names_abort (m : Machine) (e : Error) (block : Block) (pos : Pos) :
    (m.abort e block pos).literalNames = m.literalNames := by
  unfold abort
  dsimp only
  split <;> rfl

theorem turn_of_beginning {m : Machine} {block : Block} {s : Stmt Address}
    (hcode : m.code = some block) (hs : block.statements[m.pc]? = some s) :
    m.turn = match (Action.exec s).run (m.beginning s) with
      | (.ok _, n) => n
      | (.error e, n) => n.abort e block s.pos :=
  turn_of_statement hcode hs

theorem footing_turn (m : Machine) :
    Footing.Turn m.commands m.footing m.turn.footing ∧
      (m.literalNames = false → m.turn.literalNames = false) := by
  cases hcode : m.code with
  | none =>
    rw [turn_of_none hcode]
    exact ⟨.idle hcode, id⟩
  | some block =>
    cases hs : block.statements[m.pc]? with
    | none =>
      rw [turn_of_end hcode hs]
      exact ⟨.fallOff hcode hs, id⟩
    | some s =>
      obtain ⟨hbegins, hcommands, hnames⟩ := m.ground_beginning s
      have hshifted := Action.shifts_exec m.commands s (m.beginning s) hcommands
      rw [turn_of_beginning hcode hs]
      revert hshifted
      rcases (Action.exec s).run (m.beginning s) with ⟨r, n⟩
      rintro ⟨⟨d, hd, hshift⟩, hkept⟩
      rw [hbegins] at hshift
      rw [hnames] at hkept
      cases r with
      | ok _ => exact ⟨.run hcode hs hd hshift, hkept⟩
      | error e =>
        dsimp only
        rw [footing_abort, names_abort]
        exact ⟨.fail hcode hs hd hshift, hkept⟩

end Machine

end LineBasic
