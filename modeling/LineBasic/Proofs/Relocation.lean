import LineBasic.Proofs.Moving

/-!
# Code at other positions and addresses

Code may be read from another text or behind other code. Then it has other positions, its addresses are
higher, and so are the numbers that its loops have while it is being read; nothing else about it changes.
-/

namespace LineBasic

set_option autoImplicit false

section

variable {χ υ : Type} (f : Pos → Pos)

/-! ### Other positions -/

def Selector.mapPos (s : Selector) : Selector :=
  ⟨Expr.mapPosLevels f s.levels⟩

def Levels.mapPos (l : Levels) : Levels :=
  ⟨Expr.mapPosList f l.first, Expr.mapPosLevels f l.more⟩

def Guard.mapPos : Guard → Guard
  | .while condition => .while (condition.mapPos f)
  | .until condition => .until (condition.mapPos f)

def Target.mapPos : Target → Target
  | .var pos name => .var (f pos) name
  | .element pos name selector => .element (f pos) name (selector.mapPos f)

def ForHeader.mapPos (h : ForHeader χ) : ForHeader χ :=
  ⟨h.var, h.start.mapPos f, h.limit.mapPos f, h.step.map (Expr.mapPos f), h.body, h.exit⟩

/-- The same statement at other positions. -/
def Stmt.mapPos : Stmt χ → Stmt χ
  | command pos name args literal => command (f pos) name (args.map (Expr.mapPos f)) literal
  | assign pos name value => assign (f pos) name (value.mapPos f)
  | assignElement pos name selector value =>
    assignElement (f pos) name (selector.mapPos f) (value.mapPos f)
  | dim pos name sizes => dim (f pos) name (Expr.mapPosList f sizes)
  | map pos name => map (f pos) name
  | when pos condition taken => when (f pos) (condition.mapPos f) taken.mapPos
  | choose pos condition taken otherwise =>
    choose (f pos) (condition.mapPos f) taken.mapPos otherwise.mapPos
  | goto pos target => goto (f pos) (target.mapPos f)
  | gosub pos target => gosub (f pos) (target.mapPos f)
  | onGoto pos index labels => onGoto (f pos) (index.mapPos f) labels
  | onGosub pos index labels => onGosub (f pos) (index.mapPos f) labels
  | .for pos header => .for (f pos) (header.mapPos f)
  | next pos header => next (f pos) (header.mapPos f)
  | .do pos guard header => .do (f pos) (guard.map (Guard.mapPos f)) header
  | loop pos guard header => loop (f pos) (guard.map (Guard.mapPos f)) header
  | leave pos exit => leave (f pos) exit
  | read pos targets => read (f pos) (targets.map (Target.mapPos f))
  | .return pos => .return (f pos)
  | finish pos => finish (f pos)

/-- The same program at other positions. -/
def Code.mapPos (code : Code) : Code :=
  { code with statements := code.statements.map (Stmt.mapPos f) }

theorem Stmt.mapExit_mapPos (g : χ → υ) (s : Stmt χ) :
    (s.mapPos f).mapExit g = (s.mapExit g).mapPos f := by
  induction s with
  | when pos condition taken ih => rw [mapPos, mapExit, ih, mapExit, mapPos]
  | choose pos condition taken otherwise ih ih' => rw [mapPos, mapExit, ih, ih', mapExit, mapPos]
  | _ => rfl

theorem Expr.isEmpty_mapPosList (es : List Expr) : (Expr.mapPosList f es).isEmpty = es.isEmpty := by
  cases es <;> rfl

theorem Expr.isEmpty_mapPosLevels (levels : List (List Expr)) :
    (Expr.mapPosLevels f levels).isEmpty = levels.isEmpty := by
  cases levels <;> rfl

/-! ### Other addresses -/

def ForHeader.relocated (n : Nat) (g : χ → υ) (h : ForHeader χ) : ForHeader υ :=
  ⟨h.var, h.start.mapPos f, h.limit.mapPos f, h.step.map (Expr.mapPos f), h.body + n, g h.exit⟩

/-- The same statement at other positions and `n` statements further down, with the places after its
loops renamed. -/
def Stmt.relocated (n : Nat) (g : χ → υ) : Stmt χ → Stmt υ
  | command pos name args literal => command (f pos) name (args.map (Expr.mapPos f)) literal
  | assign pos name value => assign (f pos) name (value.mapPos f)
  | assignElement pos name selector value =>
    assignElement (f pos) name (selector.mapPos f) (value.mapPos f)
  | dim pos name sizes => dim (f pos) name (Expr.mapPosList f sizes)
  | map pos name => map (f pos) name
  | when pos condition taken => when (f pos) (condition.mapPos f) (taken.relocated n g)
  | choose pos condition taken otherwise =>
    choose (f pos) (condition.mapPos f) (taken.relocated n g) (otherwise.relocated n g)
  | goto pos target => goto (f pos) (target.mapPos f)
  | gosub pos target => gosub (f pos) (target.mapPos f)
  | onGoto pos index labels => onGoto (f pos) (index.mapPos f) labels
  | onGosub pos index labels => onGosub (f pos) (index.mapPos f) labels
  | .for pos header => .for (f pos) (header.relocated f n g)
  | next pos header => next (f pos) (header.relocated f n g)
  | .do pos guard header => .do (f pos) (guard.map (Guard.mapPos f)) (header.moved n g)
  | loop pos guard header => loop (f pos) (guard.map (Guard.mapPos f)) (header.moved n g)
  | leave pos exit => leave (f pos) (g exit)
  | read pos targets => read (f pos) (targets.map (Target.mapPos f))
  | .return pos => .return (f pos)
  | finish pos => finish (f pos)

def OpenLoop.relocated (n m : Nat) : OpenLoop → OpenLoop
  | .for pos header => .for (f pos) (header.relocated f n (· + m))
  | .do pos header => .do (f pos) (header.moved n (· + m))

theorem OpenLoop.exit_relocated (n m : Nat) (loop : OpenLoop) :
    (loop.relocated f n m).exit = loop.exit + m := by
  cases loop <;> rfl

theorem OpenLoop.code_unclosed_relocated (n m : Nat) (loop : OpenLoop) :
    (loop.relocated f n m).unclosed.code = loop.unclosed.code := by
  cases loop <;> rfl

theorem Stmt.relocated_down (k n : Nat) (g : χ → υ) (s : Stmt χ) :
    s.relocated (Pos.down k) n g = s.moved k n g := by
  have hguard : Guard.mapPos (Pos.down k) = Guard.down k := by
    funext g
    cases g <;> rfl
  have htarget : Target.mapPos (Pos.down k) = Target.down k := by
    funext t
    cases t <;> rfl
  induction s with
  | when pos condition taken ih => rw [relocated, ih, moved]; rfl
  | choose pos condition taken otherwise ih ih' => rw [relocated, ih, ih', moved]; rfl
  | «do» => rw [relocated, moved, hguard]
  | loop => rw [relocated, moved, hguard]
  | read => rw [relocated, moved, htarget]
  | _ => rfl

theorem Stmt.relocated_zero (s : Stmt χ) : s.relocated f 0 id = s.mapPos f := by
  induction s with
  | when pos condition taken ih => rw [relocated, ih, mapPos]
  | choose pos condition taken otherwise ih ih' => rw [relocated, ih, ih', mapPos]
  | _ => rfl

/-- The draft of code that is read behind the code of `base`. -/
def Draft.behind (base d : Draft) : Draft where
  statements := base.statements ++ d.statements.map (Stmt.relocated f base.here (· + base.exits.size))
  labels := base.labels ++ d.labels.map fun (name, address) => (name, address + base.here)
  data := base.data ++ d.data
  loops := d.loops.map (OpenLoop.relocated f base.here base.exits.size) ++ base.loops
  exits := base.exits ++ d.exits.map fun exit => if exit = 0 then 0 else exit + base.here

namespace Draft

variable (base d : Draft)

theorem here_behind : (base.behind f d).here = d.here + base.here := by
  simp [behind, here, Nat.add_comm]

theorem addLabel_behind (name : String) :
    { base.behind f d with labels := (base.behind f d).labels.push (name, (base.behind f d).here) } =
      base.behind f { d with labels := d.labels.push (name, d.here) } := by
  rw [here_behind]
  simp [behind]

theorem addData_behind (constant : Constant) :
    { base.behind f d with data := (base.behind f d).data.push constant } =
      base.behind f { d with data := d.data.push constant } := by
  simp [behind]

theorem push_behind (s : Stmt LoopId) :
    { base.behind f d with
        statements :=
          (base.behind f d).statements.push (s.relocated f base.here (· + base.exits.size)) } =
      base.behind f { d with statements := d.statements.push s } := by
  simp [behind]

theorem openLoop_behind (loop : OpenLoop) :
    { base.behind f d with
        loops := loop.relocated f base.here base.exits.size :: (base.behind f d).loops
        exits := (base.behind f d).exits.push 0 } =
      base.behind f { d with loops := loop :: d.loops, exits := d.exits.push 0 } := by
  simp [behind]

theorem closeLoop_behind (loop : LoopId) :
    { base.behind f d with
        exits := (base.behind f d).exits.setIfInBounds (loop + base.exits.size)
          ((base.behind f d).here + 1) } =
      base.behind f { d with exits := d.exits.setIfInBounds loop (d.here + 1) } := by
  rw [here_behind]
  simp [behind, Nat.add_right_comm]

theorem behind_empty : base.behind f {} = base := by
  simp [behind]

theorem empty_behind : behind f {} d =
    { d with
      statements := d.statements.map (Stmt.mapPos f)
      loops := d.loops.map (OpenLoop.relocated f 0 0) } := by
  have hexit (exit : Nat) : (if exit = 0 then 0 else exit) = exit := by
    split
    · exact Eq.symm ‹_›
    · rfl
  have hstmt : Stmt.relocated f 0 (fun id : LoopId => id) = Stmt.mapPos f :=
    funext (Stmt.relocated_zero f)
  simp [behind, here, hexit, hstmt]

theorem finish_empty_behind {d : Draft} (h : d.loops = []) {code : Code} (hcode : d.finish = .ok code) :
    (behind f {} d).finish = .ok (code.mapPos f) := by
  rw [finish, h] at hcode
  cases hcode
  rw [empty_behind, finish, h]
  simp only [List.map_nil, Code.mapPos, Array.map_map, Function.comp_def, Stmt.mapExit_mapPos]

end Draft

end

/-! ### Positions that stay -/

theorem Selector.mapPos_id (s : Selector) : s.mapPos id = s := by
  rw [mapPos, Expr.mapPosLevels_id]

theorem Guard.mapPos_id (g : Guard) : g.mapPos id = g := by
  cases g <;> rw [mapPos, Expr.mapPos_id]

theorem Target.mapPos_id (t : Target) : t.mapPos id = t := by
  cases t with
  | var => rfl
  | element pos name selector => rw [mapPos, Selector.mapPos_id]; rfl

theorem Expr.map_mapPos_id (e : Option Expr) : e.map (Expr.mapPos id) = e := by
  cases e with
  | none => rfl
  | some e => rw [Option.map_some, mapPos_id]

theorem ForHeader.mapPos_id {χ : Type} (h : ForHeader χ) : h.mapPos id = h := by
  rw [mapPos, Expr.mapPos_id, Expr.mapPos_id, Expr.map_mapPos_id]

theorem Guard.map_mapPos_id (g : Option Guard) : g.map (Guard.mapPos id) = g := by
  cases g with
  | none => rfl
  | some g => rw [Option.map_some, mapPos_id]

theorem Stmt.mapPos_id {χ : Type} (s : Stmt χ) : s.mapPos id = s := by
  have htargets (ts : List Target) : ts.map (Target.mapPos id) = ts := by
    rw [show Target.mapPos id = id from funext Target.mapPos_id, List.map_id]
  induction s with
  | when pos condition taken ih => rw [mapPos, ih, Expr.mapPos_id]; rfl
  | choose pos condition taken otherwise ih ih' => rw [mapPos, ih, ih', Expr.mapPos_id]; rfl
  | _ =>
    simp only [mapPos, id, Expr.mapPos_id, Expr.map_mapPos_id, Expr.mapPosList_id, Selector.mapPos_id,
      ForHeader.mapPos_id, Guard.map_mapPos_id, htargets]

theorem Code.mapPos_id (code : Code) : code.mapPos id = code := by
  rw [mapPos, show Stmt.mapPos id = id from funext Stmt.mapPos_id, Array.map_id]

theorem Draft.empty_behind_id (d : Draft) : behind id {} d = d := by
  have hloop : OpenLoop.relocated id 0 0 = id := by
    funext loop
    cases loop with
    | «for» pos header => exact congrArg (OpenLoop.for pos) header.mapPos_id
    | «do» => rfl
  rw [empty_behind, hloop, show Stmt.mapPos id = id from funext Stmt.mapPos_id, Array.map_id,
    List.map_id]

end LineBasic
