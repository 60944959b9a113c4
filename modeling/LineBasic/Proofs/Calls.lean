import LineBasic.Proofs.Courses
import LineBasic.Proofs.LabelTables
import LineBasic.Proofs.NestedLines

/-!
# Calls and returns

The stack of calls grows by `gosub` and shrinks by `return`, and hardly anything else touches it:
jumps, loops, lines on top of a suspended program and the host leave it alone. So a `return` finds
on top what the last `gosub` put there that no other `return` has taken, however far the program has
wandered off meanwhile.
-/

namespace LineBasic

set_option autoImplicit false

/-! ### What statements do to the stack -/

def CommandAction.isRun : CommandAction → Bool
  | .builtin .run => true
  | _ => false

namespace Stmt

/-- Whether a statement, other than a conditional one, is a call. -/
def isCall : Stmt Address → Bool
  | .gosub .. | .onGosub .. => true
  | _ => false

def isReturn : Stmt Address → Bool
  | .return _ => true
  | _ => false

/-- Whether a statement, other than a conditional one, leaves the stack of calls alone. -/
def keepsCalls (commands : Std.TreeMap String Command) : Stmt Address → Bool
  | .command _ name _ _ => commands[name]?.all fun c => !c.action.isRun
  | .gosub .. | .onGosub .. | .return _ | .finish _ | .when .. | .choose .. => false
  | _ => true

/-- The place that a call goes to. -/
def callee : Stmt Address → Action Frame
  | .gosub _ e => Action.target e
  | .onGosub _ index labels => Action.choose index labels
  | _ => throw { code := .undefinedLabel }

end Stmt

/-- Whether a deed leaves the stack of calls alone. -/
def Deed.keepsCalls : Deed → Bool
  | .compute | .loop _ | .jump | .miss => true
  | .perform c => !c.isRun
  | _ => false

theorem Stmt.deeds_keepsCalls {commands : Std.TreeMap String Command} {s : Stmt Address}
    (h : s.keepsCalls commands) : ∀ d ∈ s.deeds commands, d.keepsCalls := by
  cases s with
  | command pos name args literal =>
    rw [keepsCalls] at h
    rw [deeds]
    cases hc : commands[name]? with
    | none => simp [Deed.keepsCalls]
    | some c => simpa [Deed.keepsCalls, hc] using h
  | _ => first | cases h; done | simp [deeds, Deed.keepsCalls]

/-- Only calls, returns, the end of a program and a new start touch the stack. -/
theorem Footing.Shift.returns_eq {d : Deed} {ok : Bool} {f f' : Footing} (h : Shift d ok f f')
    (hd : d.keepsCalls) : f'.returns = f.returns := by
  cases h with
  | call | «return» | returnOut | finish | restart | restartFails => cases hd
  | _ => rfl

namespace Action

theorem exec_of_isCall {s : Stmt Address} (hs : s.isCall) : exec s = s.callee >>= call := by
  cases s with
  | gosub pos e => rfl
  | onGosub pos index labels => rfl
  | _ => cases hs

theorem run_target_of_label {m : Machine} {name : String} {frame : Frame}
    (hfree : m.scope.contains name = false) (hlabel : m.program.label? name = some frame)
    (pos : Pos) : (target (.var pos name)).run m = (.ok frame, m) := by
  have hlabelOf : (labelOf (.var pos name)).run m = (.ok name, m) := by
    rw [labelOf, run_bind, run_get]
    dsimp only
    rw [Option.filter_some, hfree]
    rfl
  rw [target, run_bind, hlabelOf]
  dsimp only
  rw [run_located, labelFrame, run_bind, run_get]
  dsimp only
  rw [hlabel]
  rfl

theorem within_callee (s : Stmt Address) : Within .still s.callee := by
  cases s with
  | gosub pos e => exact within_target e
  | onGosub pos index labels => exact within_choose index labels
  | _ => exact .of_throw _

end Action

/-! ### Turns that call and return -/

namespace BoundedStack

variable {α : Type}

theorem top?_add (s : BoundedStack α) (a : α) : (s.add a).top? = some a :=
  Array.back?_push

theorem pop_add (s : BoundedStack α) (a : α) : (s.add a).pop = s := by
  rw [add, pop, Array.pop_push]

/-- A stack with so many more items on top of another one. -/
inductive Above (base : BoundedStack α) : Nat → BoundedStack α → Prop where
  | base : Above base 0 base
  | add {n : Nat} {s : BoundedStack α} (h : Above base n s) (a : α) : Above base (n + 1) (s.add a)

end BoundedStack

namespace Machine

/-- A turn that runs a statement of some kind does what its deeds do. -/
theorem turnIs_footing {m : Machine} {kind : Std.TreeMap String Command → Stmt Address → Bool}
    {idle : Bool} (h : m.turnIs kind idle) :
    (idle ∧ m.turn.footing = { m.footing with pc := m.pc + 1 }) ∨
      ∃ commands t, kind commands t ∧ ∃ d ∈ t.deeds commands,
        Footing.Shift d true { m.footing with pc := m.pc + 1 } m.turn.footing := by
  obtain ⟨s, hok, hturn, hkind⟩ := turnIs_elim h
  obtain ⟨random, henacted⟩ := Action.exec_enacted s (m.beginning s)
  have hbegins := (m.ground_beginning s).1
  revert hkind henacted
  cases s.enacted (m.beginning s) with
  | none =>
    intro hidle hrun
    refine .inl ⟨hidle, ?_⟩
    dsimp only at hrun
    rw [hturn, hrun]
    exact hbegins
  | some r =>
    obtain ⟨t, n⟩ := r
    rintro hkind ⟨hn, hrun⟩
    rw [hrun] at hok hturn
    have hshift := (Action.shifts_exec n.commands t n rfl).footing
    have hfooting : n.footing = { m.footing with pc := m.pc + 1 } := by
      rw [hn, ← hbegins]
    rw [hok, ← hturn, hfooting] at hshift
    exact .inr ⟨n.commands, t, hkind, hshift⟩

theorem turnIs_runs {m : Machine} {kind : Std.TreeMap String Command → Stmt Address → Bool}
    (h : m.turnIs kind false) : ∃ commands t, kind commands t ∧ ∃ d ∈ t.deeds commands,
      Footing.Shift d true { m.footing with pc := m.pc + 1 } m.turn.footing :=
  (turnIs_footing h).resolve_left fun hidle => nomatch hidle.1

theorem returns_turn {m : Machine} (h : m.turnIs Stmt.keepsCalls true) :
    m.turn.returns = m.returns := by
  rcases turnIs_footing h with ⟨-, hkept⟩ | ⟨commands, t, hkind, d, hd, hshift⟩
  · exact congrArg Footing.returns hkept
  · exact hshift.returns_eq (Stmt.deeds_keepsCalls hkind d hd)

theorem returns_turn_of_atEnd {m : Machine} (h : m.atEnd) : m.turn.returns = m.returns := by
  rw [atEnd] at h
  cases hcode : m.code with
  | none =>
    rw [hcode] at h
    cases h
  | some block =>
    rw [hcode] at h
    rw [turn_of_end hcode (Option.isNone_iff_eq_none.mp h)]
    rfl

theorem turn_of_call {m : Machine} (h : m.turnIs (fun _ => Stmt.isCall) false) :
    ∃ (block : Block) (frame : Frame), m.code = some block ∧ m.returns.size < m.returns.limit ∧
      m.turn.footing =
        { m.footing.goTo frame with returns := m.returns.add ⟨block, m.pc + 1⟩ } := by
  obtain ⟨commands, t, hcall, d, hd, hshift⟩ := turnIs_runs h
  obtain rfl : d = .call := by
    cases t <;> first | cases hcall; done | exact List.mem_singleton.mp hd
  generalize m.turn.footing = f at hshift ⊢
  cases hshift with
  | call _ hcode hroom => exact ⟨_, _, hcode, hroom, rfl⟩

theorem turn_of_return {m : Machine} (h : m.turnIs (fun _ => Stmt.isReturn) false) {frame : Frame}
    (htop : m.returns.top? = some frame) :
    m.turn.footing = { m.footing.goTo frame with returns := m.returns.pop } := by
  obtain ⟨commands, t, hreturn, d, hd, hshift⟩ := turnIs_runs h
  obtain rfl : d = .return := by
    cases t <;> first | cases hreturn; done | exact List.mem_singleton.mp hd
  generalize m.turn.footing = f at hshift ⊢
  cases hshift with
  | «return» htop' =>
    cases htop.symm.trans htop'
    rfl
  | returnOut htop' => cases htop.symm.trans htop'

/-! ### From a call to its return -/

/-- Something that happens between the turns of a machine: whatever a host can do, other than
loading a program and restoring a snapshot. -/
inductive Aside : Machine → Machine → Prop where
  /-- Events are delivered, and a new call of the host begins. -/
  | pass (m : Machine) (pending : List Event) (outputs : Nat) (clock : Clock) :
    Aside m { m with pending := pending, outputs := outputs, clock := clock }
  | wake (m : Machine) : Aside m m.wake
  | enter (m : Machine) (line : String) : Aside m (m.enter line)
  | interrupt (m : Machine) : Aside m m.interrupt
  | run (m : Machine) (block : Block) (addr : Address) : Aside m (m.run block addr)
  | setListing (m : Machine) (listing : Listing) : Aside m (m.setListing listing)
  | store (m : Machine) (heap : Heap) (name : String) (v : Value) :
    Aside m (({ m with heap := heap } : Machine).store name v)

theorem returns_wake (m : Machine) : m.wake.returns = m.returns := by
  unfold wake
  split
  · split <;> rfl
  · rfl

theorem returns_enter (m : Machine) (line : String) : (m.enter line).returns = m.returns := by
  unfold enter
  dsimp only
  split
  · rfl
  · split
    · rfl
    · split
      · rfl
      · unfold runLine compile
        cases m.program.compile m.data _ _ <;> rfl

theorem returns_interrupt (m : Machine) : m.interrupt.returns = m.returns := by
  unfold interrupt
  split <;> rfl

theorem Aside.returns_eq {m n : Machine} (h : Aside m n) : n.returns = m.returns := by
  cases h with
  | wake => exact returns_wake m
  | enter line => exact returns_enter m _
  | interrupt => exact returns_interrupt m
  | _ => rfl

/-- What a run can come to after a call at `start`, with the numbers of calls and of returns since
then. No statement of it fails, ends the program or starts a new one, and returns do not outnumber
calls. -/
inductive Excursion (start : Machine) : (calls returns : Nat) → Machine → Prop where
  | begin (hs : start.status = .running) (h : start.turnIs (fun _ => Stmt.isCall) false) :
    Excursion start 0 0 start.turn
  | aside {calls returns : Nat} {m n : Machine} (h : Excursion start calls returns m)
    (haside : Aside m n) : Excursion start calls returns n
  | turn {calls returns : Nat} {m : Machine} (h : Excursion start calls returns m)
    (hs : m.status = .running) (hturn : m.turnIs Stmt.keepsCalls true) :
    Excursion start calls returns m.turn
  | fallOff {calls returns : Nat} {m : Machine} (h : Excursion start calls returns m)
    (hs : m.status = .running) (hend : m.atEnd) : Excursion start calls returns m.turn
  | call {calls returns : Nat} {m : Machine} (h : Excursion start calls returns m)
    (hs : m.status = .running) (hcall : m.turnIs (fun _ => Stmt.isCall) false) :
    Excursion start (calls + 1) returns m.turn
  | return {calls returns : Nat} {m : Machine} (h : Excursion start calls returns m)
    (hlt : returns < calls) (hs : m.status = .running)
    (hreturn : m.turnIs (fun _ => Stmt.isReturn) false) :
    Excursion start calls (returns + 1) m.turn

/-- The first call's return address stays where it is, under one for each call that has not
returned. -/
theorem Excursion.above {start m : Machine} {calls returns : Nat}
    (h : Excursion start calls returns m) : ∃ block depth, start.code = some block ∧
      calls = returns + depth ∧ (start.returns.add ⟨block, start.pc + 1⟩).Above depth m.returns := by
  induction h with
  | begin hs hcall =>
    obtain ⟨block, frame, hcode, -, hplace⟩ := turn_of_call hcall
    have hreturns : start.turn.returns = start.returns.add ⟨block, start.pc + 1⟩ :=
      congrArg Footing.returns hplace
    refine ⟨block, 0, hcode, rfl, ?_⟩
    rw [hreturns]
    exact .base
  | aside _ haside ih =>
    rw [haside.returns_eq]
    exact ih
  | turn _ _ hturn ih =>
    rw [returns_turn hturn]
    exact ih
  | fallOff _ _ hend ih =>
    rw [returns_turn_of_atEnd hend]
    exact ih
  | @call calls returns m _ _ hcall ih =>
    obtain ⟨block, depth, hcode, hdepth, habove⟩ := ih
    obtain ⟨caller, frame, -, -, hplace⟩ := turn_of_call hcall
    have hreturns : m.turn.returns = m.returns.add ⟨caller, m.pc + 1⟩ :=
      congrArg Footing.returns hplace
    refine ⟨block, depth + 1, hcode, by omega, ?_⟩
    rw [hreturns]
    exact habove.add _
  | @«return» calls returns m _ hlt _ hreturn ih =>
    obtain ⟨block, depth, hcode, hdepth, habove⟩ := ih
    generalize hstack : m.returns = stack at habove
    cases habove with
    | base => omega
    | @add depth stack habove frame =>
      have hplace := turn_of_return hreturn (hstack ▸ stack.top?_add frame)
      have hreturns : m.turn.returns = m.returns.pop := congrArg Footing.returns hplace
      refine ⟨block, depth, hcode, by omega, ?_⟩
      rw [hreturns, hstack, stack.pop_add]
      exact habove

end Machine

/-! ### The size of the stack -/

/-- A stack of calls within its limit. -/
structure BoundedStack.Sized (s : BoundedStack Frame) : Prop where
  limit_eq : s.limit = Machine.noReturns.limit
  overflow_eq : s.overflow = Machine.noReturns.overflow
  size_le : s.size ≤ Machine.noReturns.limit

namespace BoundedStack.Sized

variable {s : BoundedStack Frame}

theorem clear (h : s.Sized) : s.clear.Sized :=
  ⟨h.limit_eq, h.overflow_eq, Nat.zero_le _⟩

theorem pop (h : s.Sized) : s.pop.Sized where
  limit_eq := h.limit_eq
  overflow_eq := h.overflow_eq
  size_le := by
    have hle := h.size_le
    rw [size] at hle ⊢
    rw [BoundedStack.pop, Array.size_pop]
    omega

theorem add (h : s.Sized) (hroom : s.size < s.limit) (frame : Frame) : (s.add frame).Sized where
  limit_eq := h.limit_eq
  overflow_eq := h.overflow_eq
  size_le := by
    rw [h.limit_eq] at hroom
    rw [size, BoundedStack.add, Array.size_push]
    exact hroom

end BoundedStack.Sized

/-- A statement keeps the stack of calls within its limit, whether it fails or not. -/
theorem Footing.Shift.sized {d : Deed} {ok : Bool} {f f' : Footing} (h : Shift d ok f f')
    (hf : f.returns.Sized) : f'.returns.Sized := by
  cases h with
  | call _ _ hroom => exact hf.add hroom _
  | «return» => exact hf.pop
  | returnOut | finish | restart | restartFails => exact hf.clear
  | _ => exact hf

theorem Footing.Turn.sized {commands : Std.TreeMap String Command} {f f' : Footing}
    (h : Turn commands f f') (hf : f.returns.Sized) : f'.returns.Sized := by
  cases h with
  | idle | fallOff => exact hf
  | run _ _ _ h => exact h.sized hf
  | fail _ _ _ h =>
    dsimp only [Footing.failed]
    split
    · exact (h.sized hf).clear
    · exact h.sized hf

theorem Footing.kept_sized (Start : Frame → Prop) : Kept Start fun f => f.returns.Sized where
  handled h hf := by
    cases h with
    | clear | load => exact hf.clear
    | _ => exact hf
  turn h hf := h.sized hf

namespace Session

variable {ext : Extensions} {s : Session}

theorem Reachable.sized {kept : List Snapshot} (h : Reachable ext s kept) :
    s.machine.returns.Sized :=
  (h.keeps (Footing.kept_sized _) ⟨rfl, rfl, Nat.zero_le _⟩).1

/-- A machine that a session comes to, also in the middle of a call of the host. -/
def Occurs (ext : Extensions) (m : Machine) : Prop :=
  ∃ s kept clock k, Reachable ext s kept ∧
    m = Machine.turn^[k] { ({ s.machine with clock := clock } : Machine).wake with outputs := 0 }

theorem Occurs.sized {m : Machine} (h : Occurs ext m) : m.returns.Sized := by
  obtain ⟨s, kept, clock, k, hreachable, rfl⟩ := h
  exact (Machine.kept_footing (Footing.kept_sized fun _ => True)).amid hreachable.sized clock k

end Session

/-! ### Calls and returns as brackets -/

namespace Machine

/-- The return that answers the call at the start of an excursion goes back behind it, with the
stack as it was. -/
theorem Excursion.returns {start m : Machine} {calls : Nat} (h : Excursion start calls calls m)
    (hs : m.status = .running) (hreturn : m.turnIs (fun _ => Stmt.isReturn) false) :
    m.turn.code = start.code ∧ m.turn.pc = start.pc + 1 ∧ m.turn.status = .running ∧
      m.turn.returns = start.returns := by
  obtain ⟨block, depth, hcode, hdepth, habove⟩ := h.above
  generalize hstack : m.returns = stack at habove
  cases habove with
  | base =>
    have hfooting := turn_of_return hreturn (hstack ▸ start.returns.top?_add _)
    have hreturns : m.turn.returns = start.returns :=
      (congrArg Footing.returns hfooting).trans (hstack ▸ start.returns.pop_add _)
    exact ⟨(congrArg Footing.code hfooting).trans hcode.symm, congrArg Footing.pc hfooting,
      (congrArg Footing.status hfooting).trans hs, hreturns⟩
  | add => omega

/-- The next turn runs a call, which finds its target `frame` and leaves the machine `n` to go
there. -/
structure Calls (m : Machine) (s : Stmt Address) (frame : Frame) (n : Machine) : Prop where
  upcoming : m.upcoming? = some s
  finds : ∃ t n₀, s.enacted (m.beginning s) = some (t, n₀) ∧ t.isCall ∧
    t.callee.run n₀ = (.ok frame, n)

namespace Calls

variable {m n : Machine} {s : Stmt Address} {frame : Frame}

theorem code_eq (h : m.Calls s frame n) :
    ∃ block, m.code = some block ∧ block.statements[m.pc]? = some s :=
  Option.bind_eq_some_iff.mp h.upcoming

theorem footing_eq (h : m.Calls s frame n) : n.footing = { m.footing with pc := m.pc + 1 } := by
  obtain ⟨t, n₀, henacted, -, hcallee⟩ := h.finds
  obtain ⟨random, hexec⟩ := Action.exec_enacted s (m.beginning s)
  rw [henacted] at hexec
  have hkept := ((Action.within_callee t).rooted.ground n₀).1
  rw [hcallee, hexec.1] at hkept
  exact hkept.trans (m.ground_beginning s).1

theorem run_eq (h : m.Calls s frame n) {block : Block} (hcode : m.code = some block) :
    (Action.exec s).run (m.beginning s) =
      if m.returns.limit ≤ m.returns.size then
        (.error { code := .outOfMemory, detail := m.returns.overflow }, n)
      else
        (.ok (), { n with
          returns := m.returns.add ⟨block, m.pc + 1⟩, code := some frame.block
          pc := frame.addr }) := by
  have hfooting := h.footing_eq
  have hcode' : n.code = some block := (congrArg Footing.code hfooting).trans hcode
  have hpc : n.pc = m.pc + 1 := congrArg Footing.pc hfooting
  have hreturns : n.returns = m.returns := congrArg Footing.returns hfooting
  obtain ⟨t, n₀, henacted, hcall, hcallee⟩ := h.finds
  obtain ⟨random, hexec⟩ := Action.exec_enacted s (m.beginning s)
  rw [henacted] at hexec
  rw [hexec.2, Action.exec_of_isCall hcall, Action.run_bind, hcallee]
  dsimp only
  rw [Action.run_call hcode', hpc, hreturns]

theorem pending_of_full (h : m.Calls s frame n) (hfull : m.returns.limit ≤ m.returns.size) :
    ∃ e, e.code = .outOfMemory ∧ m.turn.pending = n.pending ++ [.error e] := by
  obtain ⟨block, hcode, hs⟩ := h.code_eq
  have hrun := h.run_eq hcode
  rw [if_pos hfull] at hrun
  let e : Error := { code := .outOfMemory, detail := m.returns.overflow }
  refine ⟨(e.locatedAt s.pos).withSource block.source, ?_, ?_⟩
  · rw [Error.code_withSource, Error.code_locatedAt]
  · rw [turn_of_beginning hcode hs, hrun]
    dsimp only [abort, pushEvent]
    split <;> rfl

end Calls

/-- Calls and returns are brackets. The return that answers a call goes on behind the statement that
the call stands in, in the same block and with the stack that was there before the call; there are
never more than 65536 calls to be answered, and one that would be too many is refused before it does
anything. In between there may be commands of the host that print and store variables. -/
theorem gosub_return_brackets {ext : Extensions} {m : Machine} (h : Session.Occurs ext m) :
    (∀ calls n, Excursion m calls calls n → n.status = .running →
      n.turnIs (fun _ => Stmt.isReturn) false →
      n.turn.code = m.code ∧ n.turn.pc = m.pc + 1 ∧ n.turn.status = .running ∧
        n.turn.returns = m.returns) ∧
    m.returns.size ≤ 65536 ∧
    ∀ s frame n, m.Calls s frame n →
      n.code = m.code ∧ n.pc = m.pc + 1 ∧ n.returns = m.returns ∧
      (m.returns.size = 65536 → (Action.exec s).run (m.beginning s) =
          (.error { code := .outOfMemory, detail := "TOO MANY NESTED GOSUBS" }, n) ∧
        ∃ e, e.code = .outOfMemory ∧ m.turn.pending = n.pending ++ [.error e]) ∧
      (m.returns.size < 65536 → ∃ block, m.code = some block ∧
        (Action.exec s).run (m.beginning s) = (.ok (), { n with
          returns := m.returns.add ⟨block, m.pc + 1⟩, code := some frame.block
          pc := frame.addr })) := by
  have hsized := h.sized
  refine ⟨?_, hsized.size_le, ?_⟩
  · intro calls n hexcursion hs hreturn
    exact hexcursion.returns hs hreturn
  · intro s frame n hcalls
    have hfooting := hcalls.footing_eq
    obtain ⟨block, hcode, -⟩ := hcalls.code_eq
    have hrun := hcalls.run_eq hcode
    rw [hsized.limit_eq, hsized.overflow_eq] at hrun
    refine ⟨congrArg Footing.code hfooting, congrArg Footing.pc hfooting,
      congrArg Footing.returns hfooting, ?_, ?_⟩
    · intro hfull
      have hle : noReturns.limit ≤ m.returns.size := Nat.le_of_eq hfull.symm
      rw [if_pos hle] at hrun
      exact ⟨hrun, hcalls.pending_of_full (hsized.limit_eq ▸ hle)⟩
    · intro hroom
      have hlt : ¬noReturns.limit ≤ m.returns.size := Nat.not_le_of_lt hroom
      rw [if_neg hlt] at hrun
      exact ⟨block, hcode, hrun⟩

/-- A machine whose program is a label and a call of it. -/
structure Recurses (block : Block) (name : String) (m : Machine) : Prop where
  code : m.code = some block
  statements : ∃ p q, block.statements = #[.gosub p (.var q name)]
  pc : m.pc = 0
  quiet : m.tracing = false
  free : m.scope.contains name = false
  label : m.program.label? name = some ⟨block, 0⟩

namespace Recurses

variable {block : Block} {name : String} {m : Machine}

theorem calls (h : Recurses block name m) :
    ∃ s, m.Calls s ⟨block, 0⟩ { m with pc := m.pc + 1 } := by
  obtain ⟨p, q, hstatements⟩ := h.statements
  have hbegin : m.beginning (.gosub p (.var q name)) = { m with pc := m.pc + 1 } := by
    rw [beginning, trace, if_neg]
    rw [h.quiet]
    exact Bool.false_ne_true
  refine ⟨.gosub p (.var q name), ?_, _, _, rfl, rfl, ?_⟩
  · rw [upcoming?, h.code, Option.bind_some, hstatements, h.pc]
    rfl
  · rw [hbegin]
    exact Action.run_target_of_label (m := { m with pc := m.pc + 1 }) h.free h.label q

theorem turn (h : Recurses block name m) (hroom : m.returns.size < m.returns.limit) :
    Recurses block name m.turn ∧ m.turn.returns = m.returns.add ⟨block, m.pc + 1⟩ := by
  obtain ⟨s, hcalls⟩ := h.calls
  obtain ⟨block', hcode, hs⟩ := hcalls.code_eq
  have hsame : block' = block := Option.some.inj (hcode.symm.trans h.code)
  subst hsame
  rw [turn_of_beginning hcode hs, hcalls.run_eq hcode, if_neg (Nat.not_le_of_lt hroom)]
  exact ⟨⟨rfl, h.statements, rfl, h.quiet, h.free, h.label⟩, rfl⟩

theorem turns (h : Recurses block name m) {k : Nat} (hroom : m.returns.size + k ≤ m.returns.limit) :
    Recurses block name (Machine.turn^[k] m) ∧
      (Machine.turn^[k] m).returns.size = m.returns.size + k := by
  induction k generalizing m with
  | zero => exact ⟨h, rfl⟩
  | succ k ih =>
    obtain ⟨hturn, hreturns⟩ := h.turn (by omega)
    have hsize : m.turn.returns.size = m.returns.size + 1 := by
      rw [hreturns]
      exact Array.size_push _
    have hlimit : m.turn.returns.limit = m.returns.limit := by
      rw [hreturns]
      rfl
    obtain ⟨hrest, hrestSize⟩ := ih hturn (by omega)
    rw [Function.iterate_succ_apply]
    exact ⟨hrest, by omega⟩

end Recurses

end Machine

namespace Session

/-- A program whose subroutine calls another one, about to call it. -/
def calling : Machine :=
  let loaded := (serve ⟨Machine.new {} (.ofSeed 7), []⟩ {}
    (.load "if true then gosub a\nend\na: gosub b\nreturn\nb: return")).2
  let entered := (loaded.serve {} (.enter "run")).2
  Machine.turn^[1] { ({ entered.machine with clock := {} } : Machine).wake with outputs := 0 }

theorem occurs_calling : Occurs .keepCont calling :=
  ⟨_, [], {}, 1, .serve (.serve (.new {} (.ofSeed 7)) {} _) {} _, rfl⟩

/-- A program that calls itself. -/
def recursing : Session :=
  let loaded := (serve ⟨Machine.new {} (.ofSeed 7), []⟩ {} (.load "a: gosub a")).2
  (loaded.serve {} (.run ⟨0, #[.gosub ⟨1, 4⟩ (.var ⟨1, 10⟩ "a")], "a: gosub a", none⟩ 0)).2

theorem recurses_recursing : ∃ block,
    Machine.Recurses block "a" recursing.machine ∧ recursing.machine.status = .running ∧
      recursing.machine.returns = Machine.noReturns := by
  have hsource : (Listing.ofSource "a: gosub a").source = "a: gosub a" := by decide +kernel
  have hparse : parse (Listing.ofSource "a: gosub a").source =
      .ok ⟨#[.gosub ⟨1, 4⟩ (.var ⟨1, 10⟩ "a")], [("a", 0)], []⟩ := by
    rw [hsource]
    decide +kernel
  have hload := Machine.load_of_parse (Machine.new {} (.ofSeed 7)) hparse
  dsimp only at hload
  rw [hsource, Machine.toSnapshot_new] at hload
  unfold recursing serve
  dsimp only
  rw [hload]
  refine ⟨_, ⟨rfl, ⟨_, _, rfl⟩, rfl, rfl, ?_, ?_⟩, rfl, rfl⟩
  · decide +kernel
  · exact Program.tight_of_empty.label?_addLabels (by simp) "a"

theorem exists_full : ∃ m s frame n, Occurs .keepCont m ∧ m.returns.size = 65536 ∧
    m.Calls s frame n := by
  obtain ⟨block, hrecurses, hs, hreturns⟩ := recurses_recursing
  have hwake : ({ recursing.machine with clock := {} } : Machine).wake =
      { recursing.machine with clock := {} } := by
    apply Machine.wake_of_not_asleep
    intro wake hasleep
    cases hs.symm.trans hasleep
  have hstart : Machine.Recurses block "a" { recursing.machine with clock := {}, outputs := 0 } :=
    ⟨hrecurses.code, hrecurses.statements, hrecurses.pc, hrecurses.quiet, hrecurses.free,
      hrecurses.label⟩
  obtain ⟨k, hk⟩ : ∃ k, k = 65536 := ⟨_, rfl⟩
  have hsize : recursing.machine.returns.size = 0 := by
    rw [hreturns]
    rfl
  have hroom : recursing.machine.returns.size + k ≤ recursing.machine.returns.limit := by
    rw [hsize, hk, hreturns]
    decide
  obtain ⟨hfull, hfullSize⟩ := hstart.turns hroom
  obtain ⟨s, hcalls⟩ := hfull.calls
  refine ⟨_, s, _, _, ⟨recursing, [], {}, k, ?_, ?_⟩, ?_, hcalls⟩
  · exact .serve (.serve (.new {} (.ofSeed 7)) {} _) {} _
  · rw [hwake]
  · rw [hfullSize]
    change recursing.machine.returns.size + k = 65536
    rw [hsize, hk]

/-- A call in a branch and its return, with another call and its return between them, and a call
that is one too many. -/
theorem gosub_return_brackets_calling :
    (Occurs .keepCont calling ∧ Machine.Excursion calling 1 1 calling.turn.turn.turn ∧
      calling.turn.turn.turn.turn.code = calling.code ∧
      calling.turn.turn.turn.turn.pc = calling.pc + 1 ∧
      calling.turn.turn.turn.turn.returns = calling.returns) ∧
    ∃ (m n : Machine) (e : Error), Occurs .keepCont m ∧ m.returns.size = 65536 ∧
      n.returns = m.returns ∧
      e.code = .outOfMemory ∧ m.turn.pending = n.pending ++ [.error e] := by
  constructor
  · have hstands : let m := calling
        m.status = .running ∧ m.turnIs (fun _ => Stmt.isCall) false ∧
        m.turn.status = .running ∧ m.turn.turnIs (fun _ => Stmt.isCall) false ∧
        m.turn.turn.status = .running ∧ m.turn.turn.turnIs (fun _ => Stmt.isReturn) false ∧
        m.turn.turn.turn.status = .running ∧
        m.turn.turn.turn.turnIs (fun _ => Stmt.isReturn) false := by
      decide +kernel
    have hoccurs := occurs_calling
    generalize calling = m at *
    obtain ⟨hs₀, hcall, hs₁, hagain, hs₂, hback, hs₃, hreturn⟩ := hstands
    have hexcursion : Machine.Excursion m 1 1 m.turn.turn.turn :=
      .return (.call (.begin hs₀ hcall) hs₁ hagain) Nat.zero_lt_one hs₂ hback
    obtain ⟨hcode, hpc, -, hreturns⟩ :=
      (Machine.gosub_return_brackets hoccurs).1 1 _ hexcursion hs₃ hreturn
    exact ⟨hoccurs, hexcursion, hcode, hpc, hreturns⟩
  · obtain ⟨m, s, frame, n, hoccurs, hfull, hcalls⟩ := exists_full
    obtain ⟨-, -, hrefuses⟩ := Machine.gosub_return_brackets hoccurs
    obtain ⟨-, -, hreturns, hrefused, -⟩ := hrefuses s frame n hcalls
    obtain ⟨-, e, he, hpending⟩ := hrefused hfull
    exact ⟨m, n, e, hoccurs, hfull, hreturns, he, hpending⟩

end Session

end LineBasic
