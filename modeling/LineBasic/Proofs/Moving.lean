import LineBasic.Code.Parser
import LineBasic.Proofs.TokenProgress

/-!
# Code at another place

A program can stand further down in a longer one. Its positions are then in later lines, and its loops
and labels have later addresses; nothing else about it changes. The scanner gives the same tokens for
the same text further down.
-/

namespace LineBasic

set_option autoImplicit false

/-- The position `k` lines further down. -/
def Pos.down (k : Nat) (p : Pos) : Pos :=
  ⟨p.line + k, p.col⟩

theorem Pos.down_zero (p : Pos) : p.down 0 = p := rfl

def Lexeme.down (k : Nat) (lexeme : Lexeme) : Lexeme :=
  { lexeme with pos := lexeme.pos.down k }

theorem Lexeme.touches_down (k : Nat) (a b : Lexeme) :
    (a.down k).touches (b.down k) = a.touches b := by
  have hline : (a.pos.line + k == b.pos.line + k) = (a.pos.line == b.pos.line) := by
    rw [Bool.eq_iff_iff]
    simp
  simp only [touches, down, Pos.down, hline]

def Cursor.down (k : Nat) (c : Cursor) : Cursor :=
  { c with pos := c.pos.down k }

/-! ### Scanning further down -/

namespace Cursor

theorem skipFrom_down (k : Nat) (gap : Gap) (cs : List Char) (pos : Pos) (lead : Bool) :
    skipFrom gap cs (pos.down k) lead = (skipFrom gap cs pos lead).down k := by
  have hline (pos : Pos) : (⟨(pos.down k).line + 1, 1⟩ : Pos) = Pos.down k ⟨pos.line + 1, 1⟩ := by
    rw [Pos.down, Pos.down, Nat.add_right_comm]
  fun_induction skipFrom gap cs pos lead with
  | case1 => rfl
  | case2 gap pos lead cs ih =>
    rw [← ih, ← hline]
    exact skipFrom.eq_2 ..
  | case3 gap pos lead c cs hcrlf hc ih =>
    rw [← ih, ← hline]
    rw [skipFrom.eq_3 _ _ _ _ _ hcrlf, if_pos hc]
  | case4 gap pos lead c cs hcrlf hc next hstep ih =>
    rw [← ih, skipFrom.eq_3 _ _ _ _ _ hcrlf, if_neg hc, hstep]
    rfl
  | case5 gap pos lead c cs hcrlf hc hstep =>
    rw [skipFrom.eq_3 _ _ _ _ _ hcrlf, if_neg hc, hstep]
    rfl

theorem skipGap_down (k : Nat) (c : Cursor) : (c.down k).skipGap = c.skipGap.down k :=
  skipFrom_down k .code c.rest c.pos c.lead

theorem skipLine_down (k : Nat) (c : Cursor) : (c.down k).skipLine = c.skipLine.down k := rfl

/-- Further down the same token is read, or none, or reading fails in the same way. -/
theorem scan_down (k : Nat) (c : Cursor) :
    match c.scan with
    | (.ok lexeme, c') => (c.down k).scan = (.ok (lexeme.map (·.down k)), c'.down k)
    | (.error e, _) => ∃ e' c', (c.down k).scan = (.error e', c') ∧ e.code = e'.code := by
  unfold scan
  dsimp only
  rw [skipGap_down]
  have hsame : (c.skipGap.down k).rest = c.skipGap.rest := rfl
  cases hrest : c.skipGap.rest with
  | nil =>
    rw [hrest] at hsame
    simp only [hsame]
    rfl
  | cons ch cs =>
    rw [hrest] at hsame
    cases hread : (readToken ch cs).result with
    | ok token =>
      simp only [hsame, hread]
      rfl
    | error detail =>
      simp only [hsame, hread]
      exact ⟨_, _, rfl, rfl⟩

end Cursor

/-! ### Expressions with other positions -/

namespace Expr

mutual

/-- The same expression at other positions. -/
def mapPos (f : Pos → Pos) : Expr → Expr
  | number pos x => number (f pos) x
  | text pos s => text (f pos) s
  | bool pos b => bool (f pos) b
  | mark pos c => mark (f pos) c
  | var pos name => var (f pos) name
  | select pos name first more => select (f pos) name (mapPosList f first) (mapPosLevels f more)
  | unary pos op e => unary (f pos) op (mapPos f e)
  | binary pos op l r => binary (f pos) op (mapPos f l) (mapPos f r)
  | list pos items => list (f pos) (mapPosList f items)

def mapPosList (f : Pos → Pos) : List Expr → List Expr
  | [] => []
  | e :: es => mapPos f e :: mapPosList f es

def mapPosLevels (f : Pos → Pos) : List (List Expr) → List (List Expr)
  | [] => []
  | level :: more => mapPosList f level :: mapPosLevels f more

end

mutual

theorem mapPos_id : ∀ e : Expr, e.mapPos id = e
  | number _ _ | text _ _ | bool _ _ | mark _ _ | var _ _ => rfl
  | select _ _ first more => by rw [mapPos, mapPosList_id first, mapPosLevels_id more]; rfl
  | unary _ _ e => by rw [mapPos, mapPos_id e]; rfl
  | binary _ _ l r => by rw [mapPos, mapPos_id l, mapPos_id r]; rfl
  | list _ items => by rw [mapPos, mapPosList_id items]; rfl

theorem mapPosList_id : ∀ es : List Expr, mapPosList id es = es
  | [] => rfl
  | e :: es => by rw [mapPosList, mapPos_id e, mapPosList_id es]

theorem mapPosLevels_id : ∀ levels : List (List Expr), mapPosLevels id levels = levels
  | [] => rfl
  | level :: more => by rw [mapPosLevels, mapPosList_id level, mapPosLevels_id more]

end

theorem pos_mapPos (f : Pos → Pos) (e : Expr) : (e.mapPos f).pos = f e.pos := by
  cases e <;> rfl

def down (k : Nat) : Expr → Expr :=
  mapPos (Pos.down k)

def downAll (k : Nat) : List Expr → List Expr :=
  mapPosList (Pos.down k)

theorem down_zero (e : Expr) : e.down 0 = e :=
  mapPos_id e

theorem downAll_zero (es : List Expr) : downAll 0 es = es :=
  mapPosList_id es

end Expr

/-! ### Statements that were moved -/

def Selector.down (k : Nat) (s : Selector) : Selector :=
  ⟨Expr.mapPosLevels (Pos.down k) s.levels⟩

theorem Selector.down_zero (s : Selector) : s.down 0 = s :=
  congrArg Selector.mk (Expr.mapPosLevels_id s.levels)

def Guard.down (k : Nat) : Guard → Guard
  | .while condition => .while (condition.down k)
  | .until condition => .until (condition.down k)

theorem Guard.down_zero (g : Guard) : g.down 0 = g := by
  cases g with
  | «while» condition => exact congrArg Guard.while condition.down_zero
  | «until» condition => exact congrArg Guard.until condition.down_zero

def Target.down (k : Nat) : Target → Target
  | .var pos name => .var (pos.down k) name
  | .element pos name selector => .element (pos.down k) name (selector.down k)

theorem Target.down_zero (t : Target) : t.down 0 = t := by
  cases t with
  | var => rfl
  | element pos name selector => exact congrArg (Target.element pos name) selector.down_zero

variable {χ υ : Type}

/-- The header of a counting loop `k` lines and `n` statements further down. -/
def ForHeader.moved (k n : Nat) (f : χ → υ) (h : ForHeader χ) : ForHeader υ :=
  ⟨h.var, h.start.down k, h.limit.down k, h.step.map (·.down k), h.body + n, f h.exit⟩

/-- The header of a guarded loop `n` statements further down. -/
def DoHeader.moved (n : Nat) (f : χ → υ) (h : DoHeader χ) : DoHeader υ :=
  ⟨h.top + n, f h.exit⟩

namespace Stmt

/-- The statement `k` lines and `n` statements further down, with the places after its loops
renamed. -/
def moved (k n : Nat) (f : χ → υ) : Stmt χ → Stmt υ
  | command pos name args literal => command (pos.down k) name (args.map (·.down k)) literal
  | assign pos name value => assign (pos.down k) name (value.down k)
  | assignElement pos name selector value =>
    assignElement (pos.down k) name (selector.down k) (value.down k)
  | dim pos name sizes => dim (pos.down k) name (Expr.downAll k sizes)
  | map pos name => map (pos.down k) name
  | when pos condition taken => when (pos.down k) (condition.down k) (taken.moved k n f)
  | choose pos condition taken otherwise =>
    choose (pos.down k) (condition.down k) (taken.moved k n f) (otherwise.moved k n f)
  | goto pos target => goto (pos.down k) (target.down k)
  | gosub pos target => gosub (pos.down k) (target.down k)
  | onGoto pos index labels => onGoto (pos.down k) (index.down k) labels
  | onGosub pos index labels => onGosub (pos.down k) (index.down k) labels
  | .for pos header => .for (pos.down k) (header.moved k n f)
  | next pos header => next (pos.down k) (header.moved k n f)
  | .do pos guard header => .do (pos.down k) (guard.map (·.down k)) (header.moved n f)
  | loop pos guard header => loop (pos.down k) (guard.map (·.down k)) (header.moved n f)
  | leave pos exit => leave (pos.down k) (f exit)
  | read pos targets => read (pos.down k) (targets.map (·.down k))
  | .return pos => .return (pos.down k)
  | finish pos => finish (pos.down k)

/-- The places after loops that a statement names. -/
def exits : Stmt χ → List χ
  | when _ _ taken => taken.exits
  | choose _ _ taken otherwise => taken.exits ++ otherwise.exits
  | .for _ header | next _ header => [header.exit]
  | .do _ _ header | loop _ _ header => [header.exit]
  | leave _ exit => [exit]
  | _ => []

theorem moved_congr {k n : Nat} {f g : χ → υ} {s : Stmt χ} (h : ∀ exit ∈ s.exits, f exit = g exit) :
    s.moved k n f = s.moved k n g := by
  induction s with
  | when pos condition taken ih => rw [moved, moved, ih h]
  | choose pos condition taken otherwise ih ih' =>
    rw [moved, moved, ih fun exit he => h exit (List.mem_append_left _ he),
      ih' fun exit he => h exit (List.mem_append_right _ he)]
  | «for» pos header => simp only [moved, ForHeader.moved, h header.exit (List.mem_singleton_self _)]
  | next pos header => simp only [moved, ForHeader.moved, h header.exit (List.mem_singleton_self _)]
  | «do» pos guard header =>
    simp only [moved, DoHeader.moved, h header.exit (List.mem_singleton_self _)]
  | loop pos guard header =>
    simp only [moved, DoHeader.moved, h header.exit (List.mem_singleton_self _)]
  | leave pos exit => simp only [moved, h exit (List.mem_singleton_self _)]
  | _ => rfl

theorem mapExit_moved {ω : Type} (k n : Nat) (f : χ → υ) (g : υ → ω) (s : Stmt χ) :
    (s.moved k n f).mapExit g = s.moved k n (g ∘ f) := by
  induction s with
  | when pos condition taken ih => rw [moved, mapExit, ih, moved]
  | choose pos condition taken otherwise ih ih' => rw [moved, mapExit, ih, ih', moved]
  | _ => rfl

theorem moved_mapExit {ω : Type} (k n : Nat) (f : χ → υ) (g : υ → ω) (s : Stmt χ) :
    (s.mapExit f).moved k n g = s.moved k n (g ∘ f) := by
  induction s with
  | when pos condition taken ih => rw [mapExit, moved, ih, moved]
  | choose pos condition taken otherwise ih ih' => rw [mapExit, moved, ih, ih', moved]
  | _ => rfl

theorem moved_zero (f : χ → υ) (s : Stmt χ) : s.moved 0 0 f = s.mapExit f := by
  have hheader (h : ForHeader χ) : h.moved 0 0 f = h.mapExit f := by
    simp only [ForHeader.moved, ForHeader.mapExit, Expr.down_zero, Option.map_id', Nat.add_zero]
  induction s with
  | when pos condition taken ih => rw [moved, mapExit, ih, Expr.down_zero, Pos.down_zero]
  | choose pos condition taken otherwise ih ih' =>
    rw [moved, mapExit, ih, ih', Expr.down_zero, Pos.down_zero]
  | _ =>
    simp only [moved, mapExit, Pos.down_zero, Expr.down_zero, Expr.downAll_zero, Selector.down_zero,
      Guard.down_zero, Target.down_zero, hheader, DoHeader.moved, DoHeader.mapExit, Option.map_id',
      List.map_id', Nat.add_zero]

end Stmt

/-! ### Programs one after the other -/

/-- Two programs one after the other, where the first one has `k` lines. -/
def Code.append (k : Nat) (a b : Code) : Code where
  statements := a.statements ++
    b.statements.map (·.moved k a.statements.size (· + a.statements.size))
  labels := a.labels ++ b.labels.map fun (name, address) => (name, address + a.statements.size)
  data := a.data ++ b.data

end LineBasic
