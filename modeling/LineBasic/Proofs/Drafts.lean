import LineBasic.Proofs.Complaints
import LineBasic.Proofs.StatementReading

/-!
# Drafts of programs

What the statements of a program are like when they come from a source, and what a statement does to the
draft that it is read into: an opening opens a loop, a closing closes the innermost one, and any other
leaves the draft as it is.
-/

namespace LineBasic

set_option autoImplicit false

def OpenLoop.exprs : OpenLoop → List Expr
  | .for _ header => header.exprs
  | .do _ _ => []

/-- The expressions that a statement assigns, itself or in its branches. -/
def Stmt.rightSides {χ : Type} : Stmt χ → List Expr
  | assign _ _ value | assignElement _ _ _ value => [value]
  | when _ _ taken => taken.rightSides
  | choose _ _ taken otherwise => taken.rightSides ++ otherwise.rightSides
  | _ => []

theorem Stmt.rightSides_mapExit {χ υ : Type} (f : χ → υ) (s : Stmt χ) :
    (s.mapExit f).rightSides = s.rightSides := by
  induction s with
  | when pos condition taken ih => exact ih
  | choose pos condition taken otherwise ih ih' => exact congr (congrArg _ ih) ih'
  | _ => rfl

def Target.selector? : Target → Option Selector
  | .var _ _ => none
  | .element _ _ selector => some selector

/-- The selectors of the elements that a statement assigns to, itself or in its branches. -/
def Stmt.selectors {χ : Type} : Stmt χ → List Selector
  | assignElement _ _ selector _ => [selector]
  | read _ targets => targets.filterMap Target.selector?
  | when _ _ taken => taken.selectors
  | choose _ _ taken otherwise => taken.selectors ++ otherwise.selectors
  | _ => []

theorem Stmt.selectors_mapExit {χ υ : Type} (f : χ → υ) (s : Stmt χ) :
    (s.mapExit f).selectors = s.selectors := by
  induction s with
  | when pos condition taken ih => exact ih
  | choose pos condition taken otherwise ih ih' => exact congr (congrArg _ ih) ih'
  | _ => rfl

/-- A statement as readers build it. -/
structure Stmt.Sound {χ : Type} (s : Stmt χ) : Prop where
  listless : s.Listless
  rightSides : ∀ e ∈ s.rightSides, e.Sound
  indexed : ∀ selector ∈ s.selectors, selector.Indexed

theorem Stmt.Sound.mapExit {χ υ : Type} {s : Stmt χ} (h : s.Sound) (f : χ → υ) :
    (s.mapExit f).Sound where
  listless := by
    rw [Stmt.Listless, Stmt.exprs_mapExit]
    exact h.listless
  rightSides := by
    rw [Stmt.rightSides_mapExit]
    exact h.rightSides
  indexed := by
    rw [Stmt.selectors_mapExit]
    exact h.indexed

/-- A statement that assigns nothing. -/
theorem Stmt.Sound.of_listless {χ : Type} {s : Stmt χ} (h : s.Listless) (hsides : s.rightSides = [])
    (hselectors : s.selectors = []) : s.Sound where
  listless := h
  rightSides := hsides ▸ List.forall_mem_nil _
  indexed := hselectors ▸ List.forall_mem_nil _

theorem Stmt.Sound.when {χ : Type} {taken : Stmt χ} (h : taken.Sound) {condition : Expr}
    (hcondition : condition.Listless) (pos : Pos) : (Stmt.when pos condition taken).Sound :=
  ⟨List.forall_mem_cons.mpr ⟨hcondition, h.listless⟩, h.rightSides, h.indexed⟩

theorem Stmt.Sound.choose {χ : Type} {taken otherwise : Stmt χ} (h : taken.Sound)
    (h' : otherwise.Sound) {condition : Expr} (hcondition : condition.Listless) (pos : Pos) :
    (Stmt.choose pos condition taken otherwise).Sound where
  listless := List.forall_mem_cons.mpr
    ⟨hcondition, List.forall_mem_append.mpr ⟨h.listless, h'.listless⟩⟩
  rightSides := List.forall_mem_append.mpr ⟨h.rightSides, h'.rightSides⟩
  indexed := List.forall_mem_append.mpr ⟨h.indexed, h'.indexed⟩

/-- A draft of a program that can be evaluated. -/
structure Draft.Sound (d : Draft) : Prop where
  statements : ∀ s ∈ d.statements, s.Sound
  loops : ∀ loop ∈ d.loops, ∀ e ∈ loop.exprs, e.Listless
  labels : ∀ label ∈ d.labels, label.2 ≤ d.statements.size

/-- Where a loop was opened. -/
def OpenLoop.pos : OpenLoop → Pos
  | .for pos _ => pos
  | .do pos _ => pos

/-- A draft whose open loops were opened in a text. -/
structure Draft.In (d : Draft) (text : List Char) : Prop where
  loops : ∀ loop ∈ d.loops, loop.pos.In text

/-- A draft in the course of reading a text. -/
structure Draft.Reading (d : Draft) (text : List Char) : Prop where
  sound : d.Sound
  inside : d.In text

/-- A sound statement is added. -/
theorem Draft.Reading.push {text : List Char} {d : Draft} {s : Stmt LoopId} (h : d.Reading text)
    (hs : s.Sound) : ({ d with statements := d.statements.push s } : Draft).Reading text := by
  obtain ⟨hsound, hin⟩ := h
  refine ⟨⟨fun y hy => ?_, hsound.loops, fun label hlabel => ?_⟩, ⟨hin.loops⟩⟩
  · rcases Array.mem_push.mp hy with hy | rfl
    · exact hsound.statements y hy
    · exact hs
  · rw [Array.size_push]
    exact Nat.le_succ_of_le (hsound.labels label hlabel)

theorem OpenLoop.faulty_unclosed {text : List Char} {loop : OpenLoop} (h : loop.pos.In text) :
    loop.unclosed.Ordinary ∧ loop.unclosed.Raised text := by
  cases loop with
  | «for» pos header => exact ⟨Error.ordinary_of_code nofun nofun, ⟨nofun, pos, rfl, h⟩, rfl⟩
  | «do» pos header => exact ⟨Error.ordinary_of_code nofun nofun, ⟨nofun, pos, rfl, h⟩, rfl⟩

/-! ### What a statement does to a draft -/

/-- What a draft holds of statements and loops. -/
structure Shape where
  statements : Array (Stmt LoopId)
  loops : List OpenLoop
  exits : Array Address

/-- The number of the loop that a `break` would leave. -/
def Shape.innermost (f : Shape) : Option LoopId :=
  f.loops.head?.map (·.exit)

def Draft.shape (d : Draft) : Shape :=
  ⟨d.statements, d.loops, d.exits⟩

/-- What reading a statement does to a draft: an opening opens the next loop, a closing closes the
innermost one, and a statement without loops leaves everything as it is. -/
def Shape.Reads (f : Shape) (s : Stmt LoopId) (f' : Shape) : Prop :=
  match s with
  | .for pos header =>
    header.body = f.statements.size + 1 ∧ header.exit = f.exits.size ∧
      f' = { f with loops := .for pos header :: f.loops, exits := f.exits.push 0 }
  | .next _ header =>
    ∃ pos outer, f.loops = .for pos header :: outer ∧
      f' = { f with
        loops := outer
        exits := f.exits.setIfInBounds header.exit (f.statements.size + 1) }
  | .do pos _ header =>
    header.top = f.statements.size ∧ header.exit = f.exits.size ∧
      f' = { f with loops := .do pos header :: f.loops, exits := f.exits.push 0 }
  | .loop _ _ header =>
    ∃ pos outer, f.loops = .do pos header :: outer ∧
      f' = { f with
        loops := outer
        exits := f.exits.setIfInBounds header.exit (f.statements.size + 1) }
  | .when _ _ taken => f.Reads taken f'
  | .choose _ _ taken otherwise => ∃ between, f.Reads taken between ∧ between.Reads otherwise f'
  | .leave _ exit => f.innermost = some exit ∧ f' = f
  | _ => f' = f

theorem Shape.Reads.statements_eq {f f' : Shape} {s : Stmt LoopId} (h : f.Reads s f') :
    f'.statements = f.statements := by
  induction s generalizing f f' with
  | «for» => rw [h.2.2]
  | next =>
    obtain ⟨_, _, -, rfl⟩ := h
    rfl
  | «do» => rw [h.2.2]
  | loop =>
    obtain ⟨_, _, -, rfl⟩ := h
    rfl
  | when pos condition taken ih => exact ih h
  | choose pos condition taken otherwise ih ih' =>
    obtain ⟨between, h₁, h₂⟩ := h
    exact (ih' h₂).trans (ih h₁)
  | leave => rw [h.2]
  | _ => exact congrArg Shape.statements h

/-- Statements that are read and added one after another. -/
inductive Shape.Grows : Shape → Shape → Prop where
  | done (f : Shape) : Grows f f
  | add {f f' g : Shape} {s : Stmt LoopId} (reads : f.Reads s f')
      (rest : Grows { f' with statements := f'.statements.push s } g) : Grows f g

/-- A sound statement is read into a draft, and is yet to be added. -/
structure Draft.Gets (d : Draft) (s : Stmt LoopId) (d' : Draft) : Prop where
  sound : s.Sound
  shape : d.shape.Reads s d'.shape

/-- A statement that starts at a position and has no labels inside. -/
structure Draft.GetsAt (pos : Pos) (d : Draft) (s : Stmt LoopId) (d' : Draft) : Prop
    extends d.Gets s d' where
  pos_eq : s.pos = pos
  labels : d'.labels = d.labels

/-- What becomes of a draft when the next statement is read, if there is one. -/
def Draft.GetsAny (d : Draft) (found : Option (Stmt LoopId)) (d' : Draft) : Prop :=
  match found with
  | some s => d.Gets s d'
  | none => d'.shape = d.shape

theorem Draft.GetsAny.of_shape {d₁ d₂ d' : Draft} {found : Option (Stmt LoopId)}
    (hshape : d₁.shape = d₂.shape) (h : d₁.GetsAny found d') : d₂.GetsAny found d' := by
  cases found with
  | some s => exact ⟨h.sound, hshape ▸ h.shape⟩
  | none => exact h.trans hshape

end LineBasic
