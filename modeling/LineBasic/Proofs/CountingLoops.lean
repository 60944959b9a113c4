import LineBasic.Proofs.Brackets
import LineBasic.Proofs.ExactIntegers
import LineBasic.Proofs.Loops
import LineBasic.Proofs.Shifts

/-!
# Counting loops

A counting loop over whole numbers makes as many passes as the way from its start to its limit has
room for, and one if there is no room at all. Its body goes on from statement to statement, so that a
pass takes a fixed number of turns and the whole loop can be told by the number of turns: where the
machine is, and which number its variable holds. A negative step counts down only if the machine is
told to respect signs; otherwise the limit bounds the variable from above, whichever way it goes.
-/

namespace LineBasic

set_option autoImplicit false

/-! ### Statements that go on -/

/-- Whether a command goes on with the statement after it. -/
def CommandAction.goesOn : CommandAction → Bool
  | .builtin .run | .builtin .cont => false
  | _ => true

/-- Whether no part of a statement jumps or ends the program, where these are the commands. -/
def Stmt.straight {χ : Type} (commands : Std.TreeMap String Command) : Stmt χ → Bool
  | command _ name _ _ => commands[name]?.all (·.action.goesOn)
  | assign .. | assignElement .. | dim .. | map .. | read .. => true
  | when _ _ taken => taken.straight commands
  | choose _ _ taken otherwise => taken.straight commands && otherwise.straight commands
  | _ => false

/-- Whether a deed goes on with the statement after it. -/
def Deed.goesOn : Deed → Bool
  | compute | miss => true
  | perform action => action.goesOn
  | _ => false

theorem Stmt.goesOn_of_straight {commands : Std.TreeMap String Command} {s : Stmt Address}
    (h : s.straight commands) : ∀ d ∈ s.deeds commands, d.goesOn := by
  induction s with
  | command pos name args literal =>
    rw [straight] at h
    refine List.forall_mem_singleton.mpr ?_
    cases hcommand : commands[name]? with
    | none => rfl
    | some c =>
      rw [hcommand] at h
      exact h
  | when pos condition taken ih => exact List.forall_mem_cons.mpr ⟨rfl, ih h⟩
  | choose pos condition taken otherwise ih₁ ih₂ =>
    obtain ⟨htaken, hotherwise⟩ := Bool.and_eq_true_iff.mp h
    exact List.forall_mem_append.mpr ⟨ih₁ htaken, ih₂ hotherwise⟩
  | assign | assignElement | dim | map | read => exact List.forall_mem_singleton.mpr rfl
  | _ => cases h

/-- What goes on leaves the machine in front of the same statement. -/
theorem Footing.Shift.place_eq {d : Deed} {ok : Bool} {f f' : Footing} (h : Shift d ok f f')
    (hd : d.goesOn) : f'.code = f.code ∧ f'.pc = f.pc := by
  cases h with
  | fail | compute | act | ask | pause | new => exact ⟨rfl, rfl⟩
  | _ => cases hd

theorem Action.place_exec {s : Stmt Address} {m : Machine} (hs : s.straight m.commands) :
    ((Action.exec s).run m).2.code = m.code ∧ ((Action.exec s).run m).2.pc = m.pc := by
  obtain ⟨d, hd, hshift⟩ := (Action.shifts_exec m.commands s m rfl).footing
  exact hshift.place_eq (Stmt.goesOn_of_straight hs d hd)

/-! ### Whole numbers in a header -/

/-- An expression that stands for a whole number, wherever it is evaluated. -/
def Expr.Means (e : Expr) (z : Int) : Prop :=
  ∀ env : Env, env.eval e = pure (.number (Float.ofInt z))

theorem Expr.means_number (pos : Pos) (n : Nat) :
    (Expr.number pos (Float.ofNat n)).Means n :=
  fun _ => rfl

theorem Expr.means_negate (pos pos' : Pos) (n : Nat) :
    (Expr.unary pos .negate (.number pos' (Float.ofNat (n + 1)))).Means (Int.negSucc n) :=
  fun _ => rfl

/-- The header counts from `a` to `b` in steps of `s`. -/
structure ForHeader.Counts {χ : Type} (header : ForHeader χ) (a b s : Int) : Prop where
  start : header.start.Means a
  limit : header.limit.Means b
  step : header.step.elim (s = 1) (·.Means s)

namespace Number

/-- How many steps of `s` there are from zero on that do not pass `d`, and one if there is none. -/
def passes (d s : Int) : Nat :=
  (max 1 (d.fdiv s + 1)).toNat

theorem passes_pos (d s : Int) : 0 < passes d s := by
  unfold passes
  omega

theorem mul_le_of_lt_passes {d s : Int} (hs : 0 < s) {p : Nat} (hp : 0 < p) (hlt : p < passes d s) :
    p * s ≤ d := by
  have hp : (p : Int) ≤ d.fdiv s := by
    unfold passes at hlt
    omega
  rw [Int.fdiv_eq_ediv_of_nonneg _ hs.le] at hp
  exact (Int.le_ediv_iff_mul_le hs).mp hp

theorem lt_passes_mul {d s : Int} (hs : 0 < s) : d < passes d s * s := by
  have hpasses : d.fdiv s < passes d s := by
    unfold passes
    omega
  rw [Int.fdiv_eq_ediv_of_nonneg _ hs.le] at hpasses
  exact (Int.ediv_lt_iff_lt_mul hs).mp hpasses

/-- The last step passes the limit by less than itself. -/
theorem mul_le_of_le_passes {d s : Int} (hs : 0 < s) {p : Nat} (hp : p ≤ passes d s) :
    0 ≤ p * s ∧ p * s ≤ max 0 d + s := by
  refine ⟨Int.mul_nonneg (Int.natCast_nonneg p) hs.le, ?_⟩
  cases p with
  | zero =>
    rw [Nat.cast_zero, Int.zero_mul]
    omega
  | succ q =>
    have hsucc : ((q + 1 : Nat) : Int) * s = q * s + s := by
      push_cast
      ring
    have hq : q * s ≤ max 0 d := by
      rcases Nat.eq_zero_or_pos q with rfl | hpos
      · rw [Nat.cast_zero, Int.zero_mul]
        exact Int.le_max_left 0 d
      · exact (mul_le_of_lt_passes hs hpos hp).trans (Int.le_max_right 0 d)
    rw [hsucc]
    exact Int.add_le_add_right hq s

/-- Whether a loop with the limit `b` goes on with its variable at `z`. -/
def again (signed : Bool) (s b z : Int) : Bool :=
  if signed && s < 0 then b ≤ z else z ≤ b

theorem again_of_up {s : Int} (hs : 0 < s) (signed : Bool) (b z : Int) :
    again signed s b z = decide (z ≤ b) := by
  have hnot : ¬s < 0 := hs.le.not_gt
  simp [again, hnot]

theorem again_of_down {s : Int} (hs : s < 0) (b z : Int) : again true s b z = decide (b ≤ z) := by
  simp [again, hs]

theorem again_of_unsigned (s b z : Int) : again false s b z = decide (z ≤ b) := by
  simp [again]

end Number

namespace Action

open Number

variable {m : Machine} {e : Expr} {z : Int}

theorem run_eval_means (h : e.Means z) (m : Machine) :
    (eval e).run m = (.ok (.number (Float.ofInt z)), m) := by
  rw [eval_eq, run_evaluate, h]
  rfl

theorem run_evalNumber_means (h : e.Means z) (m : Machine) :
    (evalNumber e).run m = (.ok (Float.ofInt z), m) := by
  rw [evalNumber, run_bind, run_eval_means h]
  rfl

theorem run_stride {step : Option Expr} {s : Int} (h : step.elim (s = 1) (·.Means s))
    (m : Machine) : (stride step).run m = (.ok (Float.ofInt s), m) := by
  cases step with
  | some e => exact run_evalNumber_means h m
  | none =>
    cases h
    rfl

theorem run_counter {var : String} (h : m.scope.fetch var = some (.number (Float.ofInt z)))
    (pos : Pos) : (counter pos var).run m = (.ok (Float.ofInt z), m) := by
  rw [counter, run_bind, run_get]
  dsimp only
  rw [h]
  rfl

theorem run_store (name : String) (v : Value) (m : Machine) :
    (store name v).run m = (.ok (), { m with scope := m.scope.store name v }) :=
  rfl

theorem run_assign (h : e.Means z) (pos : Pos) (name : String) (m : Machine) :
    (exec (.assign pos name e)).run m =
      (.ok (), { m with scope := m.scope.store name (.number (Float.ofInt z)) }) := by
  rw [exec, run_bind, run_eval_means h]
  rfl

theorem run_for {header : ForHeader Address} (hstart : header.start.Means z) (m : Machine) (pos : Pos) :
    (exec (.for pos header)).run m =
      (.ok (), { m with scope := m.scope.store header.var (.number (Float.ofInt z)) }) :=
  run_assign hstart pos header.var m

theorem run_anotherPass {header : ForHeader Address} {a b s : Int} (hheader : header.Counts a b s)
    (hz : z.natAbs ≤ 2 ^ 53) (hb : b.natAbs ≤ 2 ^ 53) (hs : s.natAbs ≤ 2 ^ 53)
    (hnext : (z + s).natAbs ≤ 2 ^ 53)
    (hvar : m.scope.fetch header.var = some (.number (Float.ofInt z))) (pos : Pos) :
    (anotherPass pos header.var header.limit header.step).run m =
      (.ok (again m.config.signedStep s b (z + s)),
        { m with scope := m.scope.store header.var (.number (Float.ofInt (z + s))) }) := by
  have hzero : (0 : Float) = Float.ofInt 0 := rfl
  have hless : Float.ofInt s < 0 ↔ s < 0 := by
    rw [hzero]
    exact ofInt_lt_ofInt hs (by decide)
  have hup := ofInt_le_ofInt hnext hb
  have hdown := ofInt_le_ofInt hb hnext
  rw [anotherPass, run_bind, run_counter hvar]
  dsimp only
  rw [run_bind, run_stride hheader.step]
  dsimp only
  rw [ofInt_add hz hs hnext, run_bind, run_store]
  dsimp only
  rw [run_bind, run_evalNumber_means hheader.limit]
  dsimp only
  rw [run_bind, run_get]
  simp only [hless, hup, ge_iff_le, hdown, again]
  split <;> rfl

theorem run_next {header : ForHeader Address} {a b s : Int} (hheader : header.Counts a b s)
    (hz : z.natAbs ≤ 2 ^ 53) (hb : b.natAbs ≤ 2 ^ 53) (hs : s.natAbs ≤ 2 ^ 53)
    (hnext : (z + s).natAbs ≤ 2 ^ 53)
    (hvar : m.scope.fetch header.var = some (.number (Float.ofInt z))) (pos : Pos) :
    (exec (.next pos header)).run m =
      (.ok (), { m with
        scope := m.scope.store header.var (.number (Float.ofInt (z + s)))
        pc := if again m.config.signedStep s b (z + s) then header.body else m.pc }) := by
  rw [exec, advanceLoop_eq, run_bind, run_anotherPass hheader hz hb hs hnext hvar]
  dsimp only
  split <;> rfl

end Action

/-! ### Loops in a run -/

/-- What comes after `m` once the host has seen to it: it may take its time over a statement, but it
leaves the place and the variable. -/
structure Machine.Resumes (var : String) (m m' : Machine) : Prop where
  code : m'.code = m.code
  pc : m'.pc = m.pc
  commands : m'.commands = m.commands
  config : m'.config = m.config
  counter : m'.scope.fetch var = m.scope.fetch var

theorem Machine.resumes_trace (var : String) (m : Machine) (pos : Pos) :
    Resumes var m (m.trace pos) := by
  rw [trace_eq]
  exact ⟨rfl, rfl, rfl, rfl, rfl⟩

theorem Machine.turn_of_run {m m' : Machine} {block : Block} {t : Stmt Address}
    (hcode : m.code = some block) (hpc : block.statements[m.pc]? = some t)
    (hexec : (Action.exec t).run (({ m with pc := m.pc + 1 } : Machine).trace t.pos) = (.ok (), m')) :
    m.turn = m' := by
  rw [turn_of_statement hcode hpc, step, hexec]

theorem Scope.fetch_store (s : Scope) (name name' : String) (v : Value) :
    (s.store name v).fetch name' = if name = name' then some v else s.fetch name' := by
  unfold fetch store
  simp only [Std.TreeMap.getElem?_insert, compare_eq_iff_eq]
  by_cases hname : name = name'
  · rw [if_pos hname, if_pos hname]
  · rw [if_neg hname, if_neg hname]

theorem Scope.fetch_store_self (s : Scope) (name : String) (v : Value) :
    (s.store name v).fetch name = some v := by
  rw [fetch_store, if_pos rfl]

namespace Block

/-- The statements of a block from one address up to another. -/
def between (block : Block) (a b : Address) : List (Stmt Address) :=
  (block.statements.toList.drop a).take (b - a)

theorem length_between (block : Block) {a b : Address} (hb : b ≤ block.statements.size) :
    (block.between a b).length = b - a := by
  rw [between, List.length_take, List.length_drop, Array.length_toList]
  exact Nat.min_eq_left (Nat.sub_le_sub_right hb a)

theorem holds_between (block : Block) (a b : Address) : block.Holds a (block.between a b) := by
  intro i s hs
  rw [between, List.getElem?_take] at hs
  split at hs
  · rwa [List.getElem?_drop, Array.getElem?_toList] at hs
  · cases hs

theorem Holds.nil {block : Block} {a : Address} : block.Holds a [] :=
  fun _ _ hs => nomatch hs

theorem Holds.cons {block : Block} {a : Address} {s : Stmt Address} {ss : List (Stmt Address)}
    (hs : block.statements[a]? = some s) (hss : block.Holds (a + 1) ss) :
    block.Holds a (s :: ss) := by
  intro i t ht
  cases i with
  | zero =>
    cases ht
    exact hs
  | succ i =>
    have hthere := hss i t ht
    rwa [Nat.add_right_comm] at hthere

theorem Holds.append {block : Block} {a : Address} {ss ts : List (Stmt Address)}
    (hss : block.Holds a ss) (hts : block.Holds (a + ss.length) ts) : block.Holds a (ss ++ ts) := by
  intro i t ht
  rcases Nat.lt_or_ge i ss.length with hi | hi
  · rw [List.getElem?_append_left hi] at ht
    exact hss i t ht
  · rw [List.getElem?_append_right hi] at ht
    have hthere := hts (i - ss.length) t ht
    rwa [Nat.add_assoc, Nat.add_sub_of_le hi] at hthere

end Block

/-- A counting loop in a block. -/
structure CountingLoop where
  block : Block
  first : Address
  header : ForHeader Address
  body : List (Stmt Address)
  opening : Pos
  closing : Pos
  holds : block.Holds first (.for opening header :: (body ++ [.next closing header]))
  starts : header.body = first + 1

namespace CountingLoop

open Machine Number

/-- A `next` of a program that was read, and the `for` before its loop's body, are a counting loop if
both are statements of their own. The `for` has the header that the `next` carries. -/
theorem exists_of_parse {source : String} {code : Code} (hparse : parse source = .ok code)
    {j : Address} {opening closing : Pos} {header header' : ForHeader Address}
    (hnext : code.statements[j]? = some (.next closing header))
    (hfor : code.statements[header.body - 1]? = some (.for opening header')) (id : Nat)
    (parent : Option Frame) :
    ∃ L : CountingLoop, L.block = ⟨id, code.statements, source, parent⟩ ∧ L.header = header ∧
      L.first + 1 = header.body ∧ L.first + L.body.length + 1 = j := by
  have hat (k : Address) : code.statements.toList[k]? = code.statements[k]? :=
    Array.getElem?_toList
  have hclosed : (j, .next header) ∈ code.marks :=
    mem_marksFrom_iff.mpr ⟨j, _, (hat j).trans hnext, (Nat.zero_add j).symm, List.mem_cons_self⟩
  obtain ⟨i, hle, hbody, -, hopened⟩ := (balanced_of_parse hparse).opens_of_next hclosed
  obtain ⟨k, s, hs, hplace, hmark⟩ := mem_marksFrom_iff.mp hopened
  obtain rfl : i = k := hplace.trans (Nat.zero_add k)
  rw [hbody, Nat.add_sub_cancel, ← hat, hs] at hfor
  cases hfor
  cases List.mem_singleton.mp hmark
  have hlt : i < j := by
    refine Nat.lt_of_le_of_ne hle ?_
    rintro rfl
    cases hs.symm.trans ((hat i).trans hnext)
  let block : Block := ⟨id, code.statements, source, parent⟩
  have hlength : (block.between (i + 1) j).length = j - (i + 1) := by
    refine block.length_between ?_
    exact Nat.le_of_lt (Array.getElem?_eq_some_iff.mp hnext).1
  have hend : i + 1 + (j - (i + 1)) = j := Nat.add_sub_of_le hlt
  refine ⟨⟨block, i, header, block.between (i + 1) j, opening, closing, ?_, hbody⟩, rfl, rfl,
    hbody.symm, ?_⟩
  · refine .cons ((hat i).symm.trans hs) (.append (block.holds_between _ _) (.cons ?_ .nil))
    rw [hlength, hend]
    exact hnext
  · dsimp only
    rw [hlength, Nat.add_right_comm]
    exact hend

/-- How many turns a pass takes: one for each statement of the body, and one to count. -/
def size (L : CountingLoop) : Nat :=
  L.body.length + 1

/-- The machine has done `i` turns of a pass with the loop's variable at `z`; if these are all, then
it has left the loop. -/
structure Stands (L : CountingLoop) (z : Int) (i : Nat) (m : Machine) : Prop where
  code : m.code = some L.block
  pc : m.pc = L.first + 1 + i
  counter : m.scope.fetch L.header.var = some (.number (Float.ofInt z))

/-- The machine is about to run one of the first `n` statements after the loop's opening. -/
def Inside (L : CountingLoop) (n : Nat) (m : Machine) : Prop :=
  m.code = some L.block ∧ ∃ i < n, m.pc = L.first + 1 + i

/-- From its first turn on up to here the run has not left the loop. -/
def UnderWay (L : CountingLoop) (run : Nat → Machine) (k : Nat) : Prop :=
  ∀ j, 0 < j → j ≤ k → L.Inside L.size (run j)

/-- A run that enters the loop, turn by turn. The body goes on from statement to statement, and as
long as the loop is under way it neither fails nor changes the loop's variable. -/
structure Runs (L : CountingLoop) (run : Nat → Machine) : Prop where
  code : (run 0).code = some L.block
  pc : (run 0).pc = L.first
  straight : ∀ s ∈ L.body, s.straight (run 0).commands
  turns : ∀ k, Resumes L.header.var (run k).turn (run (k + 1))
  quiet : ∀ k, L.UnderWay run k → L.Inside L.body.length (run k) →
    (run k).turn.code ≠ none ∧
      (run k).turn.scope.fetch L.header.var = (run k).scope.fetch L.header.var

/-- Pass number `p`, counted from zero, runs the whole body with the variable at `z`. -/
def MakesPass (L : CountingLoop) (run : Nat → Machine) (p : Nat) (z : Int) : Prop :=
  ∀ i < L.size, L.Stands z i (run (1 + p * L.size + i))

/-- The loop makes `n` passes, from `a` on in steps of `s`, and then it is left. -/
def Completes (L : CountingLoop) (run : Nat → Machine) (a s : Int) (n : Nat) : Prop :=
  (∀ p < n, L.MakesPass run p (a + p * s)) ∧
    L.Stands (a + n * s) L.size (run (1 + n * L.size))

variable {L : CountingLoop} {run : Nat → Machine} {a b s z : Int} {i k : Nat}

theorem Runs.fixtures (h : L.Runs run) (k : Nat) :
    (run k).commands = (run 0).commands ∧ (run k).config = (run 0).config := by
  induction k with
  | zero => exact ⟨rfl, rfl⟩
  | succ k ih =>
    have hturn := moves_turn.fixtures (run k)
    constructor
    · exact (h.turns k).commands.trans ((congrArg (·.2.1) hturn).trans ih.1)
    · exact (h.turns k).config.trans ((congrArg (·.1) hturn).trans ih.2)

theorem statement_body (L : CountingLoop) {t : Stmt Address} (ht : L.body[i]? = some t) :
    L.block.statements[L.first + 1 + i]? = some t :=
  L.holds.tail.left i t ht

theorem statement_closing (L : CountingLoop) :
    L.block.statements[L.first + 1 + L.body.length]? = some (.next L.closing L.header) :=
  L.holds.tail.right.head

namespace Stands

variable {m m' : Machine}

theorem resumes (h : L.Stands z i m) (hm : Resumes L.header.var m m') : L.Stands z i m' :=
  ⟨hm.code.trans h.code, hm.pc.trans h.pc, hm.counter.trans h.counter⟩

theorem inside {n : Nat} (h : L.Stands z i m) (hi : i < n) : L.Inside n m :=
  ⟨h.code, i, hi, h.pc⟩

theorem turn_body (h : L.Stands z i m) {t : Stmt Address} (ht : L.body[i]? = some t)
    (hstraight : t.straight m.commands) (hcode : m.turn.code ≠ none)
    (hvar : m.turn.scope.fetch L.header.var = m.scope.fetch L.header.var) :
    L.Stands z (i + 1) m.turn := by
  have hstatement := h.pc ▸ L.statement_body ht
  have htrace := resumes_trace L.header.var { m with pc := m.pc + 1 } t.pos
  have hplace : m.turn.code = m.code ∧ m.turn.pc = m.pc + 1 := by
    rw [turn_of_statement h.code hstatement, step] at hcode ⊢
    generalize ({ m with pc := m.pc + 1 } : Machine).trace t.pos = m₁ at *
    have hexec := Action.place_exec (htrace.commands ▸ hstraight)
    rcases hrun : (Action.exec t).run m₁ with ⟨r, m₂⟩
    rw [hrun] at hexec hcode
    cases r with
    | ok _ => exact ⟨hexec.1.trans htrace.code, hexec.2.trans htrace.pc⟩
    | error e => exact absurd (code_abort m₂ e L.block t.pos) hcode
  refine ⟨hplace.1.trans h.code, ?_, hvar.trans h.counter⟩
  rw [hplace.2, h.pc]
  rfl

theorem turn_closing (h : L.Stands z L.body.length m) (hheader : L.header.Counts a b s)
    (hz : z.natAbs ≤ 2 ^ 53) (hb : b.natAbs ≤ 2 ^ 53) (hs : s.natAbs ≤ 2 ^ 53)
    (hnext : (z + s).natAbs ≤ 2 ^ 53) :
    L.Stands (z + s) (if again m.config.signedStep s b (z + s) then 0 else L.size) m.turn := by
  have hstatement := h.pc ▸ L.statement_closing
  have htrace := resumes_trace L.header.var { m with pc := m.pc + 1 } L.closing
  have hvar := htrace.counter.trans h.counter
  have hrun := Action.run_next hheader hz hb hs hnext hvar L.closing
  rw [turn_of_run h.code hstatement hrun, htrace.config]
  refine ⟨htrace.code.trans h.code, ?_, Scope.fetch_store_self _ _ _⟩
  dsimp only
  split
  · exact L.starts
  · rw [htrace.pc, h.pc]
    rfl

end Stands

theorem Runs.opens (h : L.Runs run) (hheader : L.header.Counts a b s) : L.Stands a 0 (run 1) := by
  have htrace := resumes_trace L.header.var { run 0 with pc := (run 0).pc + 1 } L.opening
  have hturn := turn_of_run h.code (h.pc ▸ L.holds.head)
    (Action.run_for hheader.start _ L.opening)
  refine Stands.resumes ?_ (h.turns 0)
  rw [hturn]
  refine ⟨htrace.code.trans h.code, ?_, Scope.fetch_store_self _ _ _⟩
  exact htrace.pc.trans (congrArg (· + 1) h.pc)

theorem UnderWay.succ (h : L.UnderWay run k) (hnext : L.Inside L.size (run (k + 1))) :
    L.UnderWay run (k + 1) := by
  intro j hj hle
  rcases Nat.lt_or_eq_of_le hle with hlt | rfl
  · exact h j hj (Nat.lt_succ_iff.mp hlt)
  · exact hnext

theorem Runs.body_turn (h : L.Runs run) (hway : L.UnderWay run k) (hk : L.Stands z i (run k))
    (hi : i < L.body.length) : L.Stands z (i + 1) (run (k + 1)) := by
  obtain ⟨hcode, hvar⟩ := h.quiet k hway (hk.inside hi)
  have hstraight := h.straight _ (List.getElem_mem hi)
  rw [← (h.fixtures k).1] at hstraight
  have hturn := hk.turn_body (List.getElem?_eq_getElem hi) hstraight hcode hvar
  exact hturn.resumes (h.turns k)

theorem Runs.pass (h : L.Runs run) (hway : L.UnderWay run k) (hk : L.Stands z 0 (run k)) (i : Nat)
    (hi : i < L.size) : L.Stands z i (run (k + i)) ∧ L.UnderWay run (k + i) := by
  induction i with
  | zero => exact ⟨hk, hway⟩
  | succ i ih =>
    obtain ⟨hstands, hway⟩ := ih (Nat.lt_of_succ_lt hi)
    have hnext := h.body_turn hway hstands (Nat.lt_of_succ_lt_succ hi)
    exact ⟨hnext, hway.succ (hnext.inside hi)⟩

section Passes

variable (h : L.Runs run) (hheader : L.header.Counts a b s) (hb : b.natAbs ≤ 2 ^ 53)
  (hs : s.natAbs ≤ 2 ^ 53)
include h hheader hb hs

theorem Runs.next_turn {n : Nat} (hbegins : L.Stands (a + n * s) 0 (run (1 + n * L.size)))
    (hway : L.UnderWay run (1 + n * L.size)) (hbound : ∀ p ≤ n + 1, (a + p * s).natAbs ≤ 2 ^ 53) :
    L.Stands (a + (n + 1 : Nat) * s)
        (if again (run 0).config.signedStep s b (a + (n + 1 : Nat) * s) then 0 else L.size)
        (run (1 + (n + 1) * L.size)) ∧
      L.UnderWay run (1 + n * L.size + L.body.length) := by
  have hvalue : a + (n + 1 : Nat) * s = a + n * s + s := by
    push_cast
    ring
  have hplace : 1 + (n + 1) * L.size = 1 + n * L.size + L.body.length + 1 := by
    unfold size
    ring
  have hnext := hbound (n + 1) (Nat.le_refl _)
  obtain ⟨hlast, hway⟩ := h.pass hway hbegins L.body.length (Nat.lt_succ_self _)
  rw [hvalue] at hnext ⊢
  have hturn := hlast.turn_closing hheader (hbound n (Nat.le_succ n)) hb hs hnext
  rw [(h.fixtures _).2] at hturn
  rw [hplace]
  exact ⟨hturn.resumes (h.turns _), hway⟩

/-- As long as the limit lets it, the loop begins pass after pass. -/
theorem Runs.begins (n : Nat) (hbound : ∀ p ≤ n, (a + p * s).natAbs ≤ 2 ^ 53)
    (hagain : ∀ p, 0 < p → p ≤ n → again (run 0).config.signedStep s b (a + p * s)) :
    L.Stands (a + n * s) 0 (run (1 + n * L.size)) ∧ L.UnderWay run (1 + n * L.size) := by
  induction n with
  | zero =>
    have hfirst := h.opens hheader
    have hzero : a + (0 : Nat) * s = a := by simp
    rw [hzero, Nat.zero_mul]
    refine ⟨hfirst, fun j hj hle => ?_⟩
    have hone : j = 1 := Nat.le_antisymm hle hj
    rw [hone]
    exact hfirst.inside (Nat.succ_pos _)
  | succ n ih =>
    have hplace : 1 + (n + 1) * L.size = 1 + n * L.size + L.body.length + 1 := by
      unfold size
      ring
    obtain ⟨hbegins, hway⟩ := ih (fun p hp => hbound p (by omega)) fun p hpos hp =>
      hagain p hpos (by omega)
    obtain ⟨hturn, hway⟩ := h.next_turn hheader hb hs hbegins hway hbound
    rw [if_pos (hagain (n + 1) (Nat.succ_pos n) (Nat.le_refl _))] at hturn
    refine ⟨hturn, ?_⟩
    rw [hplace] at hturn ⊢
    exact hway.succ (hturn.inside (Nat.succ_pos _))

theorem Runs.makesPass {n : Nat} (hbound : ∀ p < n, (a + p * s).natAbs ≤ 2 ^ 53)
    (hagain : ∀ p, 0 < p → p < n → again (run 0).config.signedStep s b (a + p * s)) {p : Nat}
    (hp : p < n) : L.MakesPass run p (a + p * s) := by
  obtain ⟨hbegins, hway⟩ := h.begins hheader hb hs p (fun q hq => hbound q (by omega))
    fun q hpos hq => hagain q hpos (by omega)
  intro i hi
  exact (h.pass hway hbegins i hi).1

/-- The loop ends with the first pass after which the limit stops it. -/
theorem Runs.completes {n : Nat} (hn : 0 < n) (hbound : ∀ p ≤ n, (a + p * s).natAbs ≤ 2 ^ 53)
    (hagain : ∀ p, 0 < p → p < n → again (run 0).config.signedStep s b (a + p * s))
    (hlast : again (run 0).config.signedStep s b (a + n * s) = false) :
    L.Completes run a s n := by
  refine ⟨fun p hp => h.makesPass hheader hb hs (fun q hq => hbound q hq.le) hagain hp, ?_⟩
  cases n with
  | zero => cases hn
  | succ n =>
    obtain ⟨hbegins, hway⟩ := h.begins hheader hb hs n (fun p hp => hbound p (by omega))
      fun p hpos hp => hagain p hpos (by omega)
    have hturn := (h.next_turn hheader hb hs hbegins hway hbound).1
    rwa [hlast] at hturn

end Passes

section Counts

variable (hheader : L.header.Counts a b s) (ha : a.natAbs ≤ 2 ^ 51) (hb : b.natAbs ≤ 2 ^ 51)
  (hs : s.natAbs ≤ 2 ^ 51) (h : L.Runs run)
include hheader ha hb hs h

theorem Runs.completes_up (hup : 0 < s) : L.Completes run a s (passes (b - a) s) := by
  refine h.completes hheader (by omega) (by omega) (passes_pos _ _) ?_ ?_ ?_
  · intro p hp
    obtain ⟨hlow, hhigh⟩ := mul_le_of_le_passes hup hp
    omega
  · intro p hpos hp
    have hle := mul_le_of_lt_passes hup hpos hp
    rw [again_of_up hup, decide_eq_true_iff]
    omega
  · have hlt := lt_passes_mul (d := b - a) hup
    rw [again_of_up hup, decide_eq_false_iff_not]
    omega

theorem Runs.completes_down (hdown : s < 0) (hsigned : (run 0).config.signedStep) :
    L.Completes run a s (passes (a - b) (-s)) := by
  have hup : 0 < -s := by omega
  have hneg (p : Nat) : (p : Int) * s = -(p * -s) := by ring
  refine h.completes hheader (by omega) (by omega) (passes_pos _ _) ?_ ?_ ?_
  · intro p hp
    obtain ⟨hlow, hhigh⟩ := mul_le_of_le_passes hup hp
    rw [hneg]
    omega
  · intro p hpos hp
    have hle := mul_le_of_lt_passes hup hpos hp
    rw [hsigned, again_of_down hdown, decide_eq_true_iff, hneg]
    omega
  · have hlt := lt_passes_mul (d := a - b) hup
    rw [hsigned, again_of_down hdown, decide_eq_false_iff_not, hneg]
    omega

omit ha in
/-- Without signs, a step below the limit takes a descending loop further below it. -/
theorem Runs.makesPass_unsigned (hdown : s < 0) (hsigned : (run 0).config.signedStep = false)
    (hbelow : a + s ≤ b) {n : Nat} (hbound : ∀ p < n, (a + (p : Nat) * s).natAbs ≤ 2 ^ 53) {p : Nat}
    (hp : p < n) : L.MakesPass run p (a + p * s) := by
  refine h.makesPass hheader (by omega) (by omega) hbound ?_ hp
  intro q hpos hq
  have hle : (q : Int) * s ≤ 1 * s := Int.mul_le_mul_of_nonpos_right (by omega) hdown.le
  rw [hsigned, again_of_unsigned, decide_eq_true_iff]
  omega

theorem Runs.completes_once (hsigned : (run 0).config.signedStep = false) (habove : b < a + s) :
    L.Completes run a s 1 := by
  refine h.completes hheader (by omega) (by omega) Nat.one_pos ?_ ?_ ?_
  · intro p hp
    obtain rfl | rfl : p = 0 ∨ p = 1 := by omega
    · rw [Nat.cast_zero, Int.zero_mul]
      omega
    · rw [Nat.cast_one, Int.one_mul]
      omega
  · intro p hpos hp
    omega
  · rw [hsigned, again_of_unsigned, decide_eq_false_iff_not, Nat.cast_one, Int.one_mul]
    omega

end Counts

/-- A loop over whole numbers makes as many passes as there are steps from its start to its limit, and
one if there are none. A negative step counts down only if signs are respected; otherwise the loop
goes on for as long as its variable is below the limit. -/
theorem counting_loop_passes (L : CountingLoop) {a b s : Int} (hheader : L.header.Counts a b s)
    (ha : a.natAbs ≤ 2 ^ 51) (hb : b.natAbs ≤ 2 ^ 51) (hs : s.natAbs ≤ 2 ^ 51)
    {run : Nat → Machine} (h : L.Runs run) :
    (0 < s → L.Completes run a s (passes (b - a) s)) ∧
    (s < 0 → (run 0).config.signedStep → L.Completes run a s (passes (a - b) (-s))) ∧
    (s < 0 → (run 0).config.signedStep = false →
      (b < a + s → L.Completes run a s 1) ∧
      (a + s ≤ b → ∀ n : Nat, (∀ p < n, (a + p * s).natAbs ≤ 2 ^ 53) →
        ∀ p < n, L.MakesPass run p (a + p * s))) := by
  refine ⟨h.completes_up hheader ha hb hs, h.completes_down hheader ha hb hs, ?_⟩
  intro hdown hsigned
  refine ⟨h.completes_once hheader ha hb hs hsigned, fun hbelow n hbound p hp => ?_⟩
  exact h.makesPass_unsigned hheader hb hs hdown hsigned hbelow hbound hp

/-- A loop from seven down to two in steps of two. -/
def countdown : CountingLoop :=
  let header : ForHeader Address :=
    ⟨"i", .number ⟨1, 9⟩ (Float.ofNat 7), .number ⟨1, 14⟩ (Float.ofNat 2),
      some (.unary ⟨1, 21⟩ .negate (.number ⟨1, 22⟩ (Float.ofNat 2))), 1, 3⟩
  let body : Stmt Address := .assign ⟨2, 1⟩ "x" (.number ⟨2, 5⟩ (Float.ofNat 1))
  { block := ⟨0, #[.for ⟨1, 1⟩ header, body, .next ⟨3, 1⟩ header],
      "for i = 7 to 2 step -2\nx = 1\nnext", none⟩
    first := 0
    header := header
    body := [body]
    opening := ⟨1, 1⟩
    closing := ⟨3, 1⟩
    holds := by
      intro i t ht
      simpa using ht
    starts := rfl }

theorem counting_loop_passes_down : ∃ run : Nat → Machine,
    countdown.Runs run ∧ (run 0).config.signedStep ∧ countdown.Completes run 7 (-2) 3 := by
  let start : Machine :=
    { Machine.new { signedStep := true } (Random.ofSeed 1) with code := some countdown.block, pc := 0 }
  have hruns : countdown.Runs fun k => turn^[k] start := by
    refine ⟨rfl, rfl, ?_, fun k => ?_, fun k _ hbody => ?_⟩
    · intro t ht
      cases List.mem_singleton.mp ht
      rfl
    · rw [Function.iterate_succ_apply']
      exact ⟨rfl, rfl, rfl, rfl, rfl⟩
    · generalize turn^[k] start = m at hbody
      obtain ⟨hcode, i, hi, hpc⟩ := hbody
      cases Nat.lt_one_iff.mp hi
      have hvalue := Expr.means_number ⟨2, 5⟩ 1
      have hstatement : countdown.block.statements[m.pc]? = countdown.body[0]? := by
        rw [hpc]
        rfl
      rw [turn_of_run hcode hstatement (Action.run_assign hvalue _ _ _)]
      have htrace := resumes_trace "i" { m with pc := m.pc + 1 } ⟨2, 1⟩
      refine ⟨fun hnone => ?_, (Scope.fetch_store _ _ _ _).trans htrace.counter⟩
      cases hcode.symm.trans (htrace.code.symm.trans hnone)
  have hheader : countdown.header.Counts 7 2 (-2) :=
    ⟨Expr.means_number _ 7, Expr.means_number _ 2, Expr.means_negate _ _ 1⟩
  have hpasses := counting_loop_passes countdown hheader (by decide) (by decide) (by decide) hruns
  exact ⟨_, hruns, rfl, hpasses.2.1 (by decide) rfl⟩

end CountingLoop

end LineBasic
