import LineBasic.Proofs.Loops
import LineBasic.Proofs.Onward
import LineBasic.Proofs.SoundReading
import Mathlib.Data.List.Forall2

/-!
# Where labels point

A label is a number or a name in front of a statement, and its address is that of the next statement
to be added. So the statements in front of the address are those that start before the label, except
that an `if` is added after its branches have been read: a label in a branch points at the `if` around
it, which starts before the label, too.

The token of a label is not part of the program. To say where it stands, programs are read once more
by a reader that notes it down.
-/

namespace LineBasic

set_option autoImplicit false

/-- A token of a text that is a label: a number, or a name at the start of a line with a colon right
behind it. -/
inductive Lexeme.LabelIn (text : List Char) (lexeme : Lexeme) : String → Prop where
  | number {x : Float} (stands : lexeme.StandsIn text) (token : lexeme.token = .number x) :
      LabelIn text lexeme (Number.text x)
  | name {name : String} {colon : Lexeme} (stands : lexeme.StandsIn text)
      (token : lexeme.token = .ident name) (lead : lexeme.lead = true)
      (colonStands : colon.StandsIn text) (colonToken : colon.token = .colon)
      (touches : lexeme.touches colon = true) :
      LabelIn text lexeme name

theorem Lexeme.exists_of_isLabel {lexeme : Lexeme} {following : Option Lexeme}
    (h : lexeme.isLabel following = true) :
    ∃ after, following = some after ∧ lexeme.lead = true ∧ after.token = .colon ∧
      lexeme.touches after = true := by
  cases following with
  | none => cases h
  | some after =>
    simp only [isLabel, Option.any_some, Bool.and_eq_true, beq_iff_eq] at h
    exact ⟨after, rfl, h.1.1, h.1.2, h.2⟩

/-- A label as it stands in the text. -/
structure Mark where
  lexeme : Lexeme
  /-- Whether it stands in a branch of an `if`. -/
  nested : Bool

def Mark.pos (m : Mark) : Pos :=
  m.lexeme.pos

/-- Whether a statement is an `if`. -/
def Stmt.isConditional {χ : Type} : Stmt χ → Bool
  | when .. => true
  | choose .. => true
  | _ => false

theorem Stmt.isConditional_mapExit {χ υ : Type} (f : χ → υ) (s : Stmt χ) :
    (s.mapExit f).isConditional = s.isConditional := by
  cases s <;> rfl

/-! ### Reading with marks -/

/-- Readers that also note the labels they meet. -/
abbrev Marking (α : Type) := StateT (List Mark) Build α

namespace Marking

def note (nested : Bool) (lexeme : Lexeme) (name : String) : Marking Unit := do
  modifyThe (List Mark) (· ++ [⟨lexeme, nested⟩])
  Build.addLabel name

/-- The next statement, which stands in a branch or not. -/
def statement (nested : Bool) (n : Nat) : Marking (Option (Stmt LoopId)) :=
  Build.statementWith (note nested) (note true) n

def program (n : Nat) : Marking Unit :=
  Build.programWith (note false) (note true) n

end Marking

/-- The labels of a program as they stand in its text. -/
def marks (source : String) : List Mark :=
  match Marking.program (source.length + 1) [] {} (Lexer.ofSource source) with
  | .ok (((_, ms), _), _) => ms
  | .error _ => []

/-! ### What is noted on the way -/

variable {text : List Char}

/-- What a reader does that meets some labels and adds no statement: each label gets the address of
the next statement to be added, and stands between the places where the reader starts and ends. -/
structure Noted (text : List Char) (new : List Mark) (d : Draft) (l : Lexer) (d' : Draft)
    (l' : Lexer) : Prop where
  statements : d'.statements = d.statements
  labels : ∃ added, d'.labels.toList = d.labels.toList ++ added ∧
    List.Forall₂ (fun m label => m.lexeme.LabelIn text label.1 ∧ label.2 = d.here) new added
  onward : l.Onward text l'
  ahead : ∀ m ∈ new, ∀ q, l.Ahead text q → q ≤ m.pos
  behind : ∀ m ∈ new, l'.Ahead text m.pos.next

namespace Noted

variable {new more : List Mark} {d d₁ d₂ : Draft} {l l₁ l₂ : Lexer}

theorem nothing (hstatements : d₁.statements = d.statements) (hlabels : d₁.labels = d.labels)
    (honward : l.Onward text l₁) : Noted text [] d l d₁ l₁ where
  statements := hstatements
  labels := ⟨[], by rw [hlabels, List.append_nil], .nil⟩
  onward := honward
  ahead _ hm := absurd hm List.not_mem_nil
  behind _ hm := absurd hm List.not_mem_nil

theorem trans (h : Noted text new d l d₁ l₁) (h' : Noted text more d₁ l₁ d₂ l₂) :
    Noted text (new ++ more) d l d₂ l₂ where
  statements := h'.statements.trans h.statements
  labels := by
    obtain ⟨added, heq, hadded⟩ := h.labels
    obtain ⟨added', heq', hadded'⟩ := h'.labels
    rw [show d₁.here = d.here by rw [Draft.here, h.statements]; rfl] at hadded'
    exact ⟨added ++ added', by rw [heq', heq, List.append_assoc], List.rel_append hadded hadded'⟩
  onward := h.onward.trans h'.onward
  ahead m hm q hq := by
    rcases List.mem_append.mp hm with hm | hm
    · exact h.ahead m hm q hq
    · exact h'.ahead m hm q (h.onward q hq)
  behind m hm := by
    rcases List.mem_append.mp hm with hm | hm
    · exact h'.onward _ (h.behind m hm)
    · exact h'.behind m hm

theorem single {lexeme : Lexeme} {nested : Bool} {name : String} (hname : lexeme.LabelIn text name)
    (honward : l.Onward text l₁) (hahead : ∀ q, l.Ahead text q → q ≤ lexeme.pos)
    (hbehind : l₁.Ahead text lexeme.pos.next) :
    Noted text [⟨lexeme, nested⟩] d l { d with labels := d.labels.push (name, d.here) } l₁ where
  statements := rfl
  labels := ⟨[(name, d.here)], Array.toList_push, .cons ⟨hname, rfl⟩ .nil⟩
  onward := honward
  ahead _ hm := List.mem_singleton.mp hm ▸ hahead
  behind _ hm := List.mem_singleton.mp hm ▸ hbehind

end Noted

/-- A reader on its way through a text: draft and lexer are in order, and there is fuel enough. -/
structure Stage (text : List Char) (n : Nat) (d : Draft) (l : Lexer) : Prop where
  ready : l.Ready text n
  draft : d.Reading text
  lexer : l.Reading text

theorem Stage.mono {n n' : Nat} {d : Draft} {l : Lexer} (h : Stage text n d l) (hn : n ≤ n') :
    Stage text n' d l :=
  { h with ready := h.ready.mono hn }

theorem Stage.ofSource (source : String) :
    Stage source.toList (source.length + 1) {} (Lexer.ofSource source) :=
  ⟨.ofSource source, ⟨Draft.sound_empty, ⟨nofun⟩⟩, .start source⟩

namespace Marking

variable {α β : Type} {n : Nat}

theorem bind_of_ok {x : Marking α} {f : α → Marking β} {ms ms' : List Mark} {d d' : Draft}
    {l l' : Lexer} {a : α} (h : x ms d l = .ok (((a, ms'), d'), l')) :
    (x >>= f) ms d l = f a ms' d' l' :=
  Build.bind_of_ok (f := fun p : α × List Mark => f p.1 p.2) h

theorem lift_of_ok {x : Build α} {d d' : Draft} {l l' : Lexer} {a : α}
    (h : x d l = .ok ((a, d'), l')) (ms : List Mark) :
    (liftM x : Marking α) ms d l = .ok (((a, ms), d'), l') := by
  change (x >>= fun a => pure (a, ms) : Build (α × List Mark)) d l = _
  rw [Build.bind_of_ok h]
  rfl

theorem take_of_ok {x : Parse α} {l l' : Lexer} {a : α} (h : x l = .ok (a, l')) (ms : List Mark)
    (d : Draft) : (liftM (liftM x : Build α) : Marking α) ms d l = .ok (((a, ms), d), l') :=
  lift_of_ok (Build.lift_of_ok h) ms

/-- A reader that meets no label, with what is said of its result. -/
def Quiet (text : List Char) (n : Nat) (P : α → Prop) (x : Build α) : Prop :=
  ∀ d l a d' l', Stage text n d l → x d l = .ok ((a, d'), l') →
    Noted text [] d l d' l' ∧ Stage text n d' l' ∧ P a

theorem Quiet.of_pairs {P : α → Prop} {f : Pos → α → α} {x : Build α}
    (hpairs : ∀ q, (beyond text q).Pairs n n (f q) x x)
    (hreads : Build.Reads text n (fun d a d' => d'.statements = d.statements ∧
      d'.labels = d.labels ∧ P a) (fun _ => n) x) : Quiet text n P x := by
  intro d l a d' l' hstage hrun
  obtain ⟨honward, hready⟩ := onward_of_pairs hpairs hrun hstage.ready
  have hread := hreads d l hstage.draft hstage.lexer hstage.ready.size
  rw [hrun] at hread
  obtain ⟨hdraft, hlexer, ⟨hstatements, hlabels, ha⟩, -⟩ := hread
  exact ⟨.nothing hstatements hlabels honward, ⟨hready, hdraft, hlexer⟩, ha⟩

theorem Quiet.of_takes {P : α → Prop} {f : Pos → α → α} {x : Build α}
    (hpairs : ∀ q, (beyond text q).Pairs n n (f q) x x)
    (htakes : Build.Takes text n P (fun _ => n) x) : Quiet text n P x := by
  refine .of_pairs hpairs (htakes.imp ?_)
  rintro d a _ ⟨rfl, ha⟩
  exact ⟨rfl, rfl, ha⟩

theorem Quiet.of_stmt {f : Pos → Stmt LoopId → Stmt LoopId} {pos : Pos} {x : Build (Stmt LoopId)}
    (hpairs : ∀ q, (beyond text q).Pairs n n (f q) x x) (hreads : Build.ReadsStmt text n pos x) :
    Quiet text n (·.pos = pos) x :=
  .of_pairs hpairs (hreads.imp fun _ _ _ h => ⟨h.shape.statements_eq, h.labels, h.pos_eq⟩)

theorem Quiet.of_lift {P : α → Prop} {x : Parse α} (hx : Parse.Advances text x)
    (htakes : Build.Takes text n P (fun _ => n) (liftM x)) : Quiet text n P (liftM x) := by
  intro d l a d' l' hstage hrun
  have hread := htakes d l hstage.draft hstage.lexer hstage.ready.size
  rw [hrun] at hread
  obtain ⟨hdraft, hlexer, ⟨rfl, ha⟩, hsize⟩ := hread
  obtain ⟨hx₁, -⟩ := Build.lift_eq_ok hrun
  have honward := hx l a l' hx₁
  exact ⟨.nothing rfl rfl honward, ⟨⟨honward _ hstage.ready.ahead, hsize⟩, hdraft, hlexer⟩, ha⟩

theorem Quiet.of_pure {P : α → Prop} {a : α} (h : P a) : Quiet text n P (pure a) := by
  intro d l b d' l' hstage hrun
  cases hrun
  exact ⟨.nothing rfl rfl (.refl l), hstage, h⟩

theorem Quiet.of_bind {P : α → Prop} {Q : β → Prop} {x : Build α} {k : α → Build β}
    (hx : Quiet text n P x) (hk : ∀ a, P a → Quiet text n Q (k a)) : Quiet text n Q (x >>= k) := by
  intro d l b d₂ l₂ hstage hrun
  obtain ⟨a, d₁, l₁, hfirst, hrest⟩ := Build.bind_eq_ok.mp hrun
  obtain ⟨hnoted, hstage₁, ha⟩ := hx d l a d₁ l₁ hstage hfirst
  obtain ⟨hnoted', hstage₂, hb⟩ := hk a ha d₁ l₁ b d₂ l₂ hstage₁ hrest
  exact ⟨hnoted.trans hnoted', hstage₂, hb⟩

/-- A reader that does what the reader without marks does, and notes the labels in branches. -/
def Notes (text : List Char) (n : Nat) (P : α → Prop) (y : Marking α) (x : Build α) : Prop :=
  ∀ ms d l a d' l', Stage text n d l → x d l = .ok ((a, d'), l') →
    ∃ new, y ms d l = .ok (((a, ms ++ new), d'), l') ∧ Noted text new d l d' l' ∧
      Stage text n d' l' ∧ (∀ m ∈ new, m.nested = true) ∧ P a

namespace Notes

variable {P : α → Prop} {Q : β → Prop}

theorem of_quiet {x : Build α} (h : Quiet text n P x) : Notes text n P (liftM x) x := by
  intro ms d l a d' l' hstage hrun
  obtain ⟨hnoted, hstage', ha⟩ := h d l a d' l' hstage hrun
  refine ⟨[], ?_, hnoted, hstage', fun _ hm => absurd hm List.not_mem_nil, ha⟩
  rw [lift_of_ok hrun, List.append_nil]

theorem of_pure {a : α} (h : P a) : Notes text n P (pure a) (pure a) := by
  intro ms d l b d' l' hstage hrun
  cases hrun
  refine ⟨[], ?_, .nothing rfl rfl (.refl l), hstage, fun _ hm => absurd hm List.not_mem_nil, h⟩
  rw [List.append_nil]
  rfl

theorem of_bind {y : Marking α} {x : Build α} {k' : α → Marking β} {k : α → Build β}
    (hx : Notes text n P y x) (hk : ∀ a, P a → Notes text n Q (k' a) (k a)) :
    Notes text n Q (y >>= k') (x >>= k) := by
  intro ms d l b d₂ l₂ hstage hrun
  obtain ⟨a, d₁, l₁, hfirst, hrest⟩ := Build.bind_eq_ok.mp hrun
  obtain ⟨new, hy, hnoted, hstage₁, hnested, ha⟩ := hx ms d l a d₁ l₁ hstage hfirst
  obtain ⟨more, hk', hnoted', hstage₂, hnested', hb⟩ := hk a ha (ms ++ new) d₁ l₁ b d₂ l₂ hstage₁ hrest
  refine ⟨new ++ more, ?_, hnoted.trans hnoted', hstage₂, fun m hm => ?_, hb⟩
  · rw [bind_of_ok hy, hk', List.append_assoc]
  · exact (List.mem_append.mp hm).elim (hnested m) (hnested' m)

end Notes

/-! ### Labels in branches -/

theorem quiet_target (n : Nat) : Quiet text n Expr.Listless (Build.target n) :=
  .of_takes (fun _ => Coupling.pairs_target) (Build.takes_target (Nat.le_refl n))

theorem notes_jump (n : Nat) : Notes text n (fun _ => True) (liftM (Build.jump n)) (Build.jump n) := by
  have hpos : Quiet text n (fun _ => True) (liftM Parse.missingPos) :=
    .of_lift Parse.advances_missingPos Build.takes_missingPos
  exact .of_quiet (hpos.of_bind fun _ _ => (quiet_target n).of_bind fun _ _ => .of_pure trivial)

section Branches

variable {statement' : Marking (Option (Stmt LoopId))} {statement : Build (Option (Stmt LoopId))}
  (hstatement : Notes text n (fun _ => True) statement' statement)
include hstatement

theorem notes_insisted :
    Notes text n (fun _ => True) (Build.insisted statement') (Build.insisted statement) := by
  refine hstatement.of_bind fun found _ => ?_
  cases found with
  | some s => exact .of_pure trivial
  | none =>
    intro ms d l s d' l' _ hrun
    cases hrun

theorem notes_branch :
    Notes text n (fun _ => True) (Build.branch statement' n) (Build.branch statement n) := by
  have hpeek : Quiet text n (fun _ => True) (liftM Parse.peekToken) :=
    .of_lift Parse.advances_peekToken Build.takes_peekToken
  refine (Notes.of_quiet hpeek).of_bind fun token _ => ?_
  cases token with
  | none => exact notes_insisted hstatement
  | some token =>
    cases token with
    | number x => exact notes_jump n
    | atSign => exact notes_jump n
    | _ => exact notes_insisted hstatement

theorem notes_branchOf (pos : Pos) (branching : Build.Branching) :
    Notes text n (fun _ => True) (Build.branchOf statement' n pos branching)
      (Build.branchOf statement n pos branching) := by
  cases branching with
  | statement => exact notes_branch hstatement
  | goto => exact (Notes.of_quiet (quiet_target n)).of_bind fun _ _ => .of_pure trivial
  | gosub => exact (Notes.of_quiet (quiet_target n)).of_bind fun _ _ => .of_pure trivial

theorem notes_branches (pos wordPos : Pos) (condition : Expr) (branching : Build.Branching) :
    Notes text n (fun s => s.pos = pos ∧ s.isConditional = true)
      (Build.branches statement' n pos wordPos condition branching)
      (Build.branches statement n pos wordPos condition branching) := by
  have hnext : Quiet text n (fun _ => True) (liftM Parse.next) :=
    .of_lift Parse.advances_next Build.takes_skip
  have hpeek : Quiet text n (fun _ => True) (liftM Parse.peek) :=
    .of_lift Parse.advances_peek Build.takes_peek
  refine (notes_branchOf hstatement wordPos branching).of_bind fun taken _ => ?_
  refine (Notes.of_quiet hpeek).of_bind fun found _ => ?_
  rcases found with _ | ⟨token, elsePos, past, lead⟩
  · exact .of_pure ⟨rfl, rfl⟩
  · cases token with
    | word w =>
      cases w with
      | «else» =>
        refine (Notes.of_quiet hnext).of_bind fun _ _ => ?_
        exact (notes_branchOf hstatement elsePos branching).of_bind fun _ _ => .of_pure ⟨rfl, rfl⟩
      | _ => exact .of_pure ⟨rfl, rfl⟩
    | _ => exact .of_pure ⟨rfl, rfl⟩

theorem notes_conditional (pos : Pos) :
    Notes text n (fun s => s.pos = pos ∧ s.isConditional = true)
      (Build.conditional statement' n pos) (Build.conditional statement n pos) := by
  have hcondition : Quiet text n (·.1.Listless) (Build.condition n) :=
    .of_takes (fun _ => Coupling.pairs_condition) (Build.takes_condition (Nat.le_refl n))
  exact (Notes.of_quiet hcondition).of_bind fun r _ =>
    notes_branches hstatement pos r.2.2 r.1 r.2.1

end Branches

end Marking

/-! ### The next statement -/

/-- What reading the next statement does. Some labels stand in front of the statement and some in its
branches. -/
structure Read (text : List Char) (n : Nat) (nested : Bool) (top inner : List Mark)
    (found : Option (Stmt LoopId)) (d : Draft) (l : Lexer) (d' : Draft) (l' : Lexer) : Prop where
  noted : Noted text (top ++ inner) d l d' l'
  stage : Stage text n d' l'
  outer : ∀ m ∈ top, m.nested = nested
  branches : ∀ m ∈ inner, m.nested = true
  ended : found = none → inner = []
  ahead : ∀ s ∈ found, ∀ q, l.Ahead text q → q ≤ s.pos
  behind : ∀ s ∈ found, l'.Ahead text s.pos.next
  before : ∀ s ∈ found, ∀ m ∈ top, m.pos < s.pos
  after : ∀ s ∈ found, ∀ m ∈ inner, s.pos < m.pos
  choice : ∀ s ∈ found, inner ≠ [] → s.isConditional = true

namespace Read

variable {n : Nat} {nested : Bool} {new top inner : List Mark} {found : Option (Stmt LoopId)}
  {d d₁ d₂ : Draft} {l l₁ l₂ : Lexer}

theorem mono {n' : Nat} (h : Read text n nested top inner found d l d₁ l₁) (hn : n ≤ n') :
    Read text n' nested top inner found d l d₁ l₁ :=
  { h with stage := h.stage.mono hn }

theorem nothing (hnoted : Noted text [] d l d₁ l₁) (hstage : Stage text n d₁ l₁) :
    Read text n nested [] [] none d l d₁ l₁ := by
  refine ⟨hnoted, hstage, ?_, ?_, fun _ => rfl, ?_, ?_, ?_, ?_, ?_⟩
  all_goals simp

theorem first {lexeme : Lexeme} {s : Stmt LoopId} {m : Lexer} (hl : l.Ready text (n + 1))
    (hnext : Parse.next l = .ok (some lexeme, m)) (honward : m.Onward text l₁)
    (hnoted : Noted text inner d l₁ d₂ l₂) (hstage : Stage text n d₂ l₂)
    (hinner : ∀ m ∈ inner, m.nested = true) (hs : s.pos = lexeme.pos)
    (hchoice : inner ≠ [] → s.isConditional = true) :
    Read text n nested [] inner (some s) d l d₂ l₂ := by
  have hbehind := honward _ (hl.ahead.behind hnext).1
  exact {
    noted := (Noted.nothing rfl rfl ((Parse.advances_next _ _ _ hnext).trans honward)).trans hnoted
    stage := hstage
    outer := fun _ hm => absurd hm List.not_mem_nil
    branches := hinner
    ended := fun h => by cases h
    ahead := by
      rintro _ ⟨⟩ q hq
      rw [hs]
      exact (hq.of_next hnext).1.le_pos
    behind := by
      rintro _ ⟨⟩
      rw [hs]
      exact hnoted.onward _ hbehind
    before := fun _ _ _ hm => absurd hm List.not_mem_nil
    after := by
      rintro _ ⟨⟩ m hm
      rw [hs]
      exact Pos.next_le_iff.1 (hnoted.ahead m hm _ hbehind)
    choice := by
      rintro _ ⟨⟩
      exact hchoice }

theorem preceded (h : Read text n nested top inner found d₁ l₁ d₂ l₂) (hnew : Noted text new d l d₁ l₁)
    (hnested : ∀ m ∈ new, m.nested = nested) :
    Read text n nested (new ++ top) inner found d l d₂ l₂ where
  noted := by
    rw [List.append_assoc]
    exact hnew.trans h.noted
  stage := h.stage
  outer m hm := (List.mem_append.mp hm).elim (hnested m) (h.outer m)
  branches := h.branches
  ended := h.ended
  ahead s hs q hq := h.ahead s hs q (hnew.onward q hq)
  behind := h.behind
  before s hs m hm := by
    rcases List.mem_append.mp hm with hm | hm
    · exact Pos.next_le_iff.1 (h.ahead s hs _ (hnew.behind m hm))
    · exact h.before s hs m hm
  after := h.after
  choice := h.choice

end Read

namespace Marking

variable {n : Nat} {nested : Bool}

/-- The reader of statements does what the reader without marks does. -/
def Reads (text : List Char) (nested : Bool) (n : Nat) : Prop :=
  ∀ ms d l found d' l', Stage text n d l → Build.statement n d l = .ok ((found, d'), l') →
    ∃ top inner, statement nested n ms d l = .ok (((found, ms ++ (top ++ inner)), d'), l') ∧
      Read text n nested top inner found d l d' l' ∧ (found ≠ none → Stage text (n - 1) d' l')

theorem Reads.notes (h : Reads text true n) :
    Notes text n (fun _ => True) (statement true n) (Build.statement n) := by
  intro ms d l found d' l' hstage hrun
  obtain ⟨top, inner, hmarked, hread, -⟩ := h ms d l found d' l' hstage hrun
  refine ⟨top ++ inner, hmarked, hread.noted, hread.stage, fun m hm => ?_, trivial⟩
  exact (List.mem_append.mp hm).elim (hread.outer m) (hread.branches m)

/-- What follows a token, with labels noted. -/
abbrev following (nested : Bool) (n : Nat) (lexeme : Lexeme) : Marking (Option (Stmt LoopId)) :=
  Build.statementFrom (note nested) (statement nested n) (statement true n) n lexeme

theorem statement_of_next {ms : List Mark} {d : Draft} {l m : Lexer} {lexeme : Lexeme}
    (h : Parse.next l = .ok (some lexeme, m)) :
    statement nested (n + 1) ms d l = following nested n lexeme ms d m :=
  bind_of_ok (take_of_ok h ms d)

theorem statement_of_end {ms : List Mark} {d : Draft} {l m : Lexer}
    (h : Parse.next l = .ok (none, m)) :
    statement nested (n + 1) ms d l = .ok (((none, ms), d), m) :=
  bind_of_ok (take_of_ok h ms d)

section First

variable {lexeme : Lexeme} {d d₁ d₂ : Draft} {l l₁ l₂ m : Lexer} {found : Option (Stmt LoopId)}

theorem Reads.preceded (h : Reads text nested n) {new : List Mark} (hnew : Noted text new d l d₁ l₁)
    (hnested : ∀ m ∈ new, m.nested = nested) (hstage : Stage text n d₁ l₁)
    (hrun : Build.statement n d₁ l₁ = .ok ((found, d₂), l₂)) (ms : List Mark) :
    ∃ top inner, statement nested n (ms ++ new) d₁ l₁ =
        .ok (((found, ms ++ (top ++ inner)), d₂), l₂) ∧
      Read text n nested top inner found d l d₂ l₂ := by
  obtain ⟨top, inner, hmarked, hread, -⟩ := h (ms ++ new) d₁ l₁ found d₂ l₂ hstage hrun
  refine ⟨new ++ top, inner, ?_, hread.preceded hnew hnested⟩
  rw [hmarked, List.append_assoc, List.append_assoc]

variable (hl : Stage text (n + 1) d l) (hnext : Parse.next l = .ok (some lexeme, m))
include hl hnext

theorem stage_of_next : Stage text n d m ∧ lexeme.pos.In text := by
  have hread := Build.takes_next d l hl.draft hl.lexer hl.ready.size
  rw [Build.lift_of_ok hnext] at hread
  obtain ⟨hdraft, hlexer, ⟨-, hfound⟩, hsize⟩ := hread
  have honward : l.Onward text m := Parse.advances_next _ _ _ hnext
  exact ⟨⟨⟨honward _ hl.ready.ahead, hsize⟩, hdraft, hlexer⟩, (hfound lexeme rfl).pos⟩

theorem Notes.read {y : Marking (Stmt LoopId)} {x : Build (Stmt LoopId)}
    (h : Notes text n (fun s => s.pos = lexeme.pos ∧ s.isConditional = true) y x)
    (hrun : (some <$> x) d m = .ok ((found, d₂), l₂)) (ms : List Mark) : ∃ top inner,
      (some <$> y) ms d m = .ok (((found, ms ++ (top ++ inner)), d₂), l₂) ∧
        Read text n nested top inner found d l d₂ l₂ := by
  rw [map_eq_pure_bind] at hrun ⊢
  obtain ⟨s, d₁, l₁, hs, hpure⟩ := Build.bind_eq_ok.mp hrun
  cases hpure
  obtain ⟨inner, hy, hnoted, hstage, hnested, hpos, hchoice⟩ :=
    h ms d m s d₂ l₂ (stage_of_next hl hnext).1 hs
  refine ⟨[], inner, ?_, .first hl.ready hnext (.refl m) hnoted hstage hnested hpos fun _ => hchoice⟩
  rw [bind_of_ok hy]
  rfl

theorem Quiet.read {x : Build (Stmt LoopId)} (h : Quiet text n (·.pos = lexeme.pos) x)
    (honward : m.Onward text l₁) (hstage : Stage text n d l₁)
    (hrun : (some <$> x) d l₁ = .ok ((found, d₂), l₂)) (ms : List Mark) : ∃ top inner,
      (some <$> (liftM x : Marking (Stmt LoopId))) ms d l₁ =
          .ok (((found, ms ++ (top ++ inner)), d₂), l₂) ∧
        Read text n nested top inner found d l d₂ l₂ := by
  rw [map_eq_pure_bind] at hrun ⊢
  obtain ⟨s, d₁, l₃, hs, hpure⟩ := Build.bind_eq_ok.mp hrun
  cases hpure
  obtain ⟨hnoted, hstage', hpos⟩ := h d l₁ s d₂ l₂ hstage hs
  refine ⟨[], [], ?_, .first hl.ready hnext honward hnoted hstage' (by simp) hpos (by simp)⟩
  rw [bind_of_ok (lift_of_ok hs ms), List.append_nil, List.append_nil]
  rfl

theorem Reads.labelled (ih : Reads text nested n) {name : String} (hname : lexeme.LabelIn text name)
    (honward : m.Onward text l₁) (hstage : Stage text n d l₁)
    (hrun : (Build.addLabel name >>= fun _ => Build.statement n) d l₁ = .ok ((found, d₂), l₂))
    (ms : List Mark) : ∃ top inner,
      (note nested lexeme name >>= fun _ => statement nested n) ms d l₁ =
          .ok (((found, ms ++ (top ++ inner)), d₂), l₂) ∧
        Read text n nested top inner found d l d₂ l₂ := by
  let labelled : Draft := { d with labels := d.labels.push (name, d.here) }
  have hsingle : Noted text [⟨lexeme, nested⟩] d l labelled l₁ := by
    refine .single hname ((Parse.advances_next _ _ _ hnext).trans honward) (fun q hq => ?_) ?_
    · exact (hq.of_next hnext).1.le_pos
    · exact honward _ (hl.ready.ahead.behind hnext).1
  have hnested : ∀ m ∈ [Mark.mk lexeme nested], m.nested = nested :=
    fun m hm => List.mem_singleton.mp hm ▸ rfl
  have hlabelled : Stage text n labelled l₁ :=
    ⟨hstage.ready, (Build.notes_addLabel name d l₁ hstage.draft hstage.lexer hstage.ready.size).1,
      hstage.lexer⟩
  exact ih.preceded hsingle hnested hlabelled hrun ms

/-- A name is a label, or a statement starts with it. -/
theorem reads_name (ih : ∀ nested, Reads text nested n) {name : String} {pos : Pos} {past : Nat}
    {lead : Bool} {after : Option Lexeme} (hlexeme : lexeme = ⟨.ident name, pos, past, lead⟩)
    (hstands : lexeme.StandsIn text) (hstage : Stage text n d m)
    (hlook : Parse.peek m = .ok (after, l₁)) (hstage₁ : Stage text n d l₁)
    (honward₁ : m.Onward text l₁)
    (hrun : Build.following n lexeme d m = .ok ((found, d₂), l₂)) (ms : List Mark) :
    ∃ top inner, following nested n lexeme ms d m =
        .ok (((found, ms ++ (top ++ inner)), d₂), l₂) ∧
      Read text n nested top inner found d l d₂ l₂ := by
  subst hlexeme
  have hrest := (Build.bind_of_ok (Build.lift_of_ok hlook)).symm.trans hrun
  have hmarked : following nested n ⟨.ident name, pos, past, lead⟩ ms d m =
      (if Lexeme.isLabel ⟨.ident name, pos, past, lead⟩ after then do
        let _ ← (Parse.next : Build (Option Lexeme))
        note nested ⟨.ident name, pos, past, lead⟩ name
        statement nested n
      else some <$> liftM (Build.assignmentOrCommand n pos name) :
        Marking (Option (Stmt LoopId))) ms d l₁ :=
    bind_of_ok (take_of_ok hlook ms d)
  rw [hmarked]
  dsimp only at hrest
  split at hrest
  · rename_i hlabel
    obtain ⟨colon, d₃, l₃, htake, hlabelled⟩ := Build.bind_eq_ok.mp hrest
    have hquiet : Quiet text n (fun _ => True) (liftM Parse.next) :=
      .of_lift Parse.advances_next Build.takes_skip
    obtain ⟨hcolon, rfl⟩ := Build.lift_eq_ok htake
    obtain ⟨htaken, hstage₃, -⟩ := hquiet _ _ _ _ _ hstage₁ htake
    obtain ⟨next, rfl, hlead, hnextToken, htouches⟩ := Lexeme.exists_of_isLabel hlabel
    have hname : Lexeme.LabelIn text ⟨.ident name, pos, past, lead⟩ name :=
      .name hstands rfl hlead (hstage.ready.ahead.of_peek hlook).stands hnextToken htouches
    rw [if_pos hlabel, bind_of_ok (take_of_ok hcolon ms d₃)]
    exact (ih nested).labelled hl hnext hname (honward₁.trans htaken.onward) hstage₃ hlabelled ms
  · rename_i hlabel
    have hplain : Quiet text n (·.pos = pos) (Build.assignmentOrCommand n pos name) :=
      .of_stmt (fun _ => Coupling.pairs_assignmentOrCommand pos name)
        (Build.reads_assignmentOrCommand (Nat.le_refl n) pos name)
    rw [if_neg hlabel]
    exact hplain.read hl hnext honward₁ hstage₁ hrest ms

theorem reads_following (ih : ∀ nested, Reads text nested n)
    (hrun : Build.following n lexeme d m = .ok ((found, d₂), l₂)) (ms : List Mark) :
    ∃ top inner, following nested n lexeme ms d m =
        .ok (((found, ms ++ (top ++ inner)), d₂), l₂) ∧
      Read text n nested top inner found d l d₂ l₂ := by
  obtain ⟨hstage, hpos⟩ := stage_of_next hl hnext
  have honward : l.Onward text m := Parse.advances_next _ _ _ hnext
  have hstands : lexeme.StandsIn text := (hl.ready.ahead.of_next hnext).1.stands
  -- nothing is noted on the way to the statement
  have hskip {d₁ : Draft} {l₁ : Lexer} (hnew : Noted text [] d l d₁ l₁) (hstage₁ : Stage text n d₁ l₁)
      (hrest : Build.statement n d₁ l₁ = .ok ((found, d₂), l₂)) : ∃ top inner,
        statement nested n ms d₁ l₁ = .ok (((found, ms ++ (top ++ inner)), d₂), l₂) ∧
          Read text n nested top inner found d l d₂ l₂ := by
    have hread := (ih nested).preceded hnew (fun _ hm => absurd hm List.not_mem_nil) hstage₁ hrest ms
    rwa [List.append_nil] at hread
  obtain ⟨token, pos, past, lead⟩ := lexeme
  cases token with
  | colon => exact hskip (.nothing rfl rfl honward) hstage hrun
  | number x => exact (ih nested).labelled hl hnext (.number hstands rfl) (.refl m) hstage hrun ms
  | ident name =>
    obtain ⟨after, d₁, l₁, hpeek, hrest⟩ := Build.bind_eq_ok.mp hrun
    obtain ⟨hlook, rfl⟩ := Build.lift_eq_ok hpeek
    have hquiet : Quiet text n (fun _ => True) (liftM Parse.peek) :=
      .of_lift Parse.advances_peek Build.takes_peek
    obtain ⟨hpeeked, hstage₁, -⟩ := hquiet _ _ _ _ _ hstage hpeek
    exact reads_name hl hnext ih rfl hstands hstage hlook hstage₁ hpeeked.onward hrun ms
  | word w =>
    have hplain : Quiet text n (·.pos = pos) (Build.ofWord n pos w) :=
      .of_stmt (fun _ => Coupling.pairs_ofWord pos w) (Build.reads_ofWord (Nat.le_refl n) hpos w)
    cases w with
    | rem =>
      have hquiet : Noted text [] d l d m.skipLine := .nothing rfl rfl (Parse.onward_skipLine hnext)
      refine hskip hquiet ⟨⟨?_, ?_⟩, hstage.draft, hstage.lexer.skipLine⟩ hrun
      · exact Parse.onward_skipLine hnext _ hl.ready.ahead
      · exact Nat.lt_of_le_of_lt m.skipLine_size_le hstage.ready.size
    | data =>
      have hdata : Quiet text n (fun _ => True) (Build.data n) := by
        refine .of_pairs (fun _ => Coupling.pairs_data n n) ((Build.reads_data (Nat.le_refl n)).imp ?_)
        exact fun _ _ _ h => ⟨congrArg Shape.statements h.1, h.2, trivial⟩
      obtain ⟨⟨⟩, d₁, l₁, hread, hrest⟩ := Build.bind_eq_ok.mp hrun
      obtain ⟨hnoted, hstage₁, -⟩ := hdata d m () d₁ l₁ hstage hread
      have hmarked := bind_of_ok (f := fun _ => statement nested n) (lift_of_ok hread ms)
      have hgoes := hskip ((Noted.nothing rfl rfl honward).trans hnoted) hstage₁ hrest
      rw [← hmarked] at hgoes
      exact hgoes
    | «if» => exact (notes_conditional (ih true).notes pos).read hl hnext hrun ms
    | _ => exact hplain.read hl hnext (.refl m) hstage hrun ms
  | _ => cases hrun

end First

/-- Reading with marks is reading. -/
theorem reads_statement (n : Nat) : ∀ nested, Reads text nested n := by
  induction n with
  | zero =>
    intro nested ms d l found d' l' hstage
    exact absurd hstage.ready.size (Nat.not_lt_zero _)
  | succ n ih =>
    intro nested ms d l found d' l' hstage hrun
    rcases hnext : Parse.next l with e | ⟨_ | lexeme, m⟩
    · rw [Build.statement_of_error hnext] at hrun
      cases hrun
    · have hquiet : Quiet text (n + 1) (fun _ => True) (liftM Parse.next) :=
        .of_lift Parse.advances_next Build.takes_skip
      obtain ⟨hnoted, hstage', -⟩ := hquiet _ _ _ _ _ hstage (Build.lift_of_ok hnext)
      rw [Build.statement_of_end hnext] at hrun
      cases hrun
      refine ⟨[], [], ?_, .nothing hnoted hstage', fun h => absurd rfl h⟩
      rw [statement_of_end hnext, List.append_nil, List.append_nil]
    · rw [Build.statement_of_next hnext] at hrun
      obtain ⟨top, inner, hmarked, hread⟩ := reads_following hstage hnext ih hrun ms
      refine ⟨top, inner, ?_, hread.mono (Nat.le_succ n), fun _ => hread.stage⟩
      rw [statement_of_next hnext, hmarked]

end Marking

/-! ### Whole programs -/

/-- The statements in front of a label's address are those that start before the label. Where the
label stands in a branch, this is so of the address after, and the address is that of an `if`. -/
structure Mark.PointsAt {χ : Type} (text : List Char) (ss : List (Stmt χ)) (m : Mark)
    (label : String × Address) : Prop where
  named : m.lexeme.LabelIn text label.1
  count : ss.countP (·.pos < m.pos) = label.2 + m.nested.toNat
  before : ∀ s ∈ ss.take (label.2 + m.nested.toNat), s.pos < m.pos
  after : ∀ s ∈ ss.drop (label.2 + m.nested.toNat), m.pos < s.pos
  branch : m.nested = true → ∃ s, ss[label.2]? = some s ∧ s.isConditional = true

namespace Mark.PointsAt

variable {χ υ : Type} {m : Mark} {label : String × Address}

theorem of_split {front back : List (Stmt χ)} (hnamed : m.lexeme.LabelIn text label.1)
    (hlength : front.length = label.2 + m.nested.toNat) (hfront : ∀ s ∈ front, s.pos < m.pos)
    (hback : ∀ s ∈ back, m.pos < s.pos)
    (hbranch : m.nested = true → ∃ s, (front ++ back)[label.2]? = some s ∧ s.isConditional = true) :
    m.PointsAt text (front ++ back) label where
  named := hnamed
  count := by
    have hsome : front.countP (·.pos < m.pos) = front.length :=
      List.countP_eq_length.mpr fun s hs => decide_eq_true (hfront s hs)
    have hnone : back.countP (·.pos < m.pos) = 0 :=
      List.countP_eq_zero.mpr fun s hs => by simpa using Pos.lt_asymm (hback s hs)
    rw [List.countP_append, hsome, hnone, hlength, Nat.add_zero]
  before := by rwa [← hlength, List.take_left]
  after := by rwa [← hlength, List.drop_left]
  branch := hbranch

theorem push {ss : List (Stmt χ)} (h : m.PointsAt text ss label) {s : Stmt χ} (hs : m.pos < s.pos) :
    m.PointsAt text (ss ++ [s]) label := by
  have hle : label.2 + m.nested.toNat ≤ ss.length := h.count ▸ List.countP_le_length
  have hbranch (hnested : m.nested = true) :
      ∃ t, (ss ++ [s])[label.2]? = some t ∧ t.isConditional = true := by
    obtain ⟨t, ht, hchoice⟩ := h.branch hnested
    have hlt := (List.getElem?_eq_some_iff.mp ht).1
    exact ⟨t, by rw [List.getElem?_append_left hlt, ht], hchoice⟩
  rw [← List.take_append_drop (label.2 + m.nested.toNat) ss, List.append_assoc] at hbranch ⊢
  refine of_split h.named (List.length_take_of_le hle) h.before (fun t ht => ?_) hbranch
  rcases List.mem_append.mp ht with ht | ht
  · exact h.after t ht
  · exact List.mem_singleton.mp ht ▸ hs

theorem mapExit {ss : List (Stmt χ)} (h : m.PointsAt text ss label) (f : χ → υ) :
    m.PointsAt text (ss.map (·.mapExit f)) label where
  named := h.named
  count := by
    rw [← h.count, List.countP_map]
    simp only [Function.comp_def, Stmt.pos_mapExit]
  before := by
    rw [← List.map_take]
    exact List.forall_mem_map.mpr fun s hs => (Stmt.pos_mapExit f s).symm ▸ h.before s hs
  after := by
    rw [← List.map_drop]
    exact List.forall_mem_map.mpr fun s hs => (Stmt.pos_mapExit f s).symm ▸ h.after s hs
  branch hnested := by
    obtain ⟨s, hs, hchoice⟩ := h.branch hnested
    exact ⟨s.mapExit f, by rw [List.getElem?_map, hs]; rfl,
      (Stmt.isConditional_mapExit f s).trans hchoice⟩

end Mark.PointsAt

/-- A draft whose labels point where their marks say, with all of it behind the reader. -/
structure Placed (text : List Char) (ms : List Mark) (d : Draft) (l : Lexer) : Prop where
  sorted : d.statements.toList.Pairwise (·.pos < ·.pos)
  pointing : List.Forall₂ (Mark.PointsAt text d.statements.toList) ms d.labels.toList
  statements : ∀ s ∈ d.statements.toList, l.Ahead text s.pos.next
  marks : ∀ m ∈ ms, l.Ahead text m.pos.next

namespace Placed

variable {n : Nat} {ms top inner : List Mark} {found : Option (Stmt LoopId)} {d d' d'' : Draft}
  {l l' : Lexer}

/-- The labels in front of the statement and those in its branches, once it is added. -/
theorem pointsAt_new (h : Placed text ms d l)
    (hread : Read text n false top inner found d l d' l') {m : Mark} (hm : m ∈ top ++ inner)
    {label : String × Address} (hnamed : m.lexeme.LabelIn text label.1)
    (haddress : label.2 = d.here) :
    m.PointsAt text (d.statements.toList ++ found.toList) label := by
  have hlength : d.statements.toList.length = label.2 := haddress.symm
  have hold : ∀ s ∈ d.statements.toList, s.pos < m.pos :=
    fun s hs => Pos.next_le_iff.1 (hread.noted.ahead m hm _ (h.statements s hs))
  rcases List.mem_append.mp hm with hm | hm
  · have houter := hread.outer m hm
    refine .of_split hnamed ?_ hold (fun s hs => ?_) fun hnested => ?_
    · rw [hlength, houter]
      rfl
    · exact hread.before s (Option.mem_toList.mp hs) m hm
    · rw [houter] at hnested
      cases hnested
  · cases found with
    | none =>
      rw [hread.ended rfl] at hm
      exact absurd hm List.not_mem_nil
    | some s =>
      have hbranch : (d.statements.toList ++ [s] ++ [])[label.2]? = some s := by
        rw [← hlength, List.append_nil, List.getElem?_concat_length]
      change m.PointsAt text (d.statements.toList ++ [s]) label
      rw [← List.append_nil (d.statements.toList ++ [s])]
      refine .of_split hnamed ?_ (fun t ht => ?_) (fun t ht => absurd ht List.not_mem_nil)
        fun _ => ⟨s, hbranch, hread.choice s rfl (List.ne_nil_of_mem hm)⟩
      · rw [List.length_append, hlength, hread.branches m hm]
        rfl
      · rcases List.mem_append.mp ht with ht | ht
        · exact hold t ht
        · exact List.mem_singleton.mp ht ▸ hread.after s rfl m hm

/-- A step: the next statement is read and added. -/
theorem read (h : Placed text ms d l) (hread : Read text n false top inner found d l d' l')
    (hstatements : d''.statements.toList = d'.statements.toList ++ found.toList)
    (hlabels : d''.labels = d'.labels) : Placed text (ms ++ (top ++ inner)) d'' l' := by
  rw [hread.noted.statements] at hstatements
  have hbehind {p : Pos} (hp : l.Ahead text p.next) : ∀ s ∈ found.toList, p < s.pos :=
    fun s hs => Pos.next_le_iff.1 (hread.ahead s (Option.mem_toList.mp hs) _ hp)
  obtain ⟨added, hadded, hnew⟩ := hread.noted.labels
  constructor
  · rw [hstatements]
    refine List.pairwise_append.mpr ⟨h.sorted, ?_, fun s hs => hbehind (h.statements s hs)⟩
    cases found with
    | none => exact .nil
    | some s => exact List.pairwise_singleton _ _
  · rw [hlabels, hadded, hstatements]
    refine List.rel_append ?_ ?_
    · refine ((List.forall₂_and_left _ _).mpr ⟨h.marks, h.pointing⟩).imp fun m label hm => ?_
      cases found with
      | none => simpa using hm.2
      | some s => exact hm.2.push (hbehind hm.1 s (List.mem_singleton_self s))
    · refine ((List.forall₂_and_left _ _).mpr ⟨fun m hm => hm, hnew⟩).imp fun m label hm => ?_
      exact h.pointsAt_new hread hm.1 hm.2.1 hm.2.2
  · rw [hstatements]
    intro s hs
    rcases List.mem_append.mp hs with hs | hs
    · exact hread.noted.onward _ (h.statements s hs)
    · exact hread.behind s (Option.mem_toList.mp hs)
  · intro m hm
    rcases List.mem_append.mp hm with hm | hm
    · exact hread.noted.onward _ (h.marks m hm)
    · exact hread.noted.behind m hm

theorem finish (h : Placed text ms d l) {code : Code} (hcode : d.finish = .ok code) :
    code.statements.toList.Pairwise (·.pos < ·.pos) ∧
      List.Forall₂ (Mark.PointsAt text code.statements.toList) ms code.labels := by
  unfold Draft.finish at hcode
  split at hcode
  · cases hcode
  · cases hcode
    rw [Array.toList_map]
    refine ⟨List.pairwise_map.mpr ?_, h.pointing.imp fun m label hm => hm.mapExit _⟩
    simpa only [Stmt.pos_mapExit] using h.sorted

end Placed

/-- Reading a program notes its labels, and they point where they should. -/
theorem placed_program (n : Nat) : ∀ {ms d l d' l'}, Stage text n d l → Placed text ms d l →
    Build.program n d l = .ok (((), d'), l') →
    ∃ ms', Marking.program n ms d l = .ok ((((), ms'), d'), l') ∧ Placed text ms' d' l' := by
  induction n with
  | zero =>
    intro ms d l d' l' hstage
    exact absurd hstage.ready.size (Nat.not_lt_zero _)
  | succ n ih =>
    intro ms d l d' l' hstage hplaced hrun
    rw [Build.program_succ] at hrun
    obtain ⟨found, d₁, l₁, hstatement, hrest⟩ := Build.bind_eq_ok.mp hrun
    obtain ⟨top, inner, hmarked, hread, hcost⟩ :=
      Marking.reads_statement (n + 1) false ms d l found d₁ l₁ hstage hstatement
    unfold Marking.program Build.programWith
    change ∃ ms', (Marking.statement false (n + 1) >>= _) ms d l = _ ∧ _
    rw [Marking.bind_of_ok hmarked]
    cases found with
    | none =>
      cases hrest
      exact ⟨_, rfl, hplaced.read hread (List.append_nil _).symm rfl⟩
    | some s =>
      have hpushed :
          Placed text (ms ++ (top ++ inner)) { d₁ with statements := d₁.statements.push s } l₁ :=
        hplaced.read hread Array.toList_push rfl
      have hgets := Build.reads_statement (Nat.le_refl _) d l hstage.draft hstage.lexer hstage.ready.size
      rw [hstatement] at hgets
      have hstage₁ := hcost (by simp)
      exact ih ⟨hstage₁.ready, hstage₁.draft.push hgets.2.2.1.sound, hstage₁.lexer⟩ hpushed hrest

/-- The address of a label is the number of statements that start before it, and the statements from
there on start behind it. Only of a label in a branch this is not so: its address is one less, that of
the `if` around it. -/
theorem labels_follow_statements {source : String} {code : Code} (h : parse source = .ok code) :
    code.statements.toList.Pairwise (·.pos < ·.pos) ∧
      List.Forall₂ (Mark.PointsAt source.toList code.statements.toList) (marks source) code.labels := by
  obtain ⟨d, l, hprogram, hfinish⟩ := parse_ok h
  have hempty : Placed source.toList [] {} (Lexer.ofSource source) :=
    ⟨.nil, .nil, fun _ hp => absurd hp List.not_mem_nil, fun _ hm => absurd hm List.not_mem_nil⟩
  obtain ⟨ms, hmarked, hplaced⟩ := placed_program _ (.ofSource source) hempty hprogram
  have hmarks : marks source = ms := by rw [marks, hmarked]
  rw [hmarks]
  exact hplaced.finish hfinish

/-- Labels in front of statements and one in a branch. -/
theorem labels_follow_statements_branch :
    let source := "1 a\nif b then\n2 c\nx: d"
    ∃ code, parse source = .ok code ∧ code.labels = [("1", 0), ("2", 1), ("x", 2)] ∧
      code.statements.toList.map Stmt.pos = [⟨1, 3⟩, ⟨2, 1⟩, ⟨4, 4⟩] ∧
      code.statements.toList.Pairwise (·.pos < ·.pos) ∧
      List.Forall₂ (Mark.PointsAt source.toList code.statements.toList) (marks source) code.labels := by
  intro source
  have hread : (parse source).toOption.map
      (fun code => (code.labels, code.statements.toList.map Stmt.pos)) =
        some ([("1", 0), ("2", 1), ("x", 2)], [⟨1, 3⟩, ⟨2, 1⟩, ⟨4, 4⟩]) := by
    decide +kernel
  obtain ⟨code, hcode, hshape⟩ := Option.map_eq_some_iff.mp hread
  have hparse : parse source = .ok code := by
    cases hresult : parse source with
    | error e =>
      rw [hresult] at hcode
      cases hcode
    | ok code' =>
      rw [hresult] at hcode
      cases hcode
      rfl
  obtain ⟨hlabels, hstarts⟩ := Prod.mk.inj hshape
  exact ⟨code, hparse, hlabels, hstarts, labels_follow_statements hparse⟩

/-- The `if` starts before the label in its branch, and the label does not count it. -/
theorem label_in_branch_points_at_if :
    let source := "if a then\n10 b"
    (parse source).toOption.map Code.labels = some [("10", 0)] ∧
      (marks source).map Mark.pos = [⟨2, 1⟩] ∧
        (parse source).toOption.map (·.statements.toList.countP (·.pos < ⟨2, 1⟩)) = some 1 := by
  decide +kernel

end LineBasic
