import LineBasic.Proofs.Climbing
import LineBasic.Proofs.Names
import LineBasic.Proofs.Rows
import LineBasic.Stmt

/-!
# What reading an expression comes to

Reading ends in a complaint that points into the source, at a token or where the scanner stands, or in an
expression that can be evaluated and printed: lists stand only where a command takes its arguments, and
names, numbers and strings are such as tokens can have. The failures that no source should cause are
those of the readers themselves: fuel that is used up, and a token that is given back twice. They have no
position.
-/

namespace LineBasic

set_option autoImplicit false

/-- An error that a program can cause: neither a failure inside of the interpreter nor the complaint
about a selector without levels. -/
structure Error.Ordinary (e : Error) : Prop where
  code_ne : e.code ≠ .internal
  detail_ne : e.code = .malformed → e.detail ≠ "EXPECTED INDEX"

namespace Error

theorem ordinary_of_code {e : Error} (h : e.code ≠ .internal) (h' : e.code ≠ .malformed) :
    e.Ordinary :=
  ⟨h, fun hcode => absurd hcode h'⟩

theorem ordinary_malformed (pos : Pos) {detail : String} (h : detail ≠ "EXPECTED INDEX") :
    (malformed pos detail).Ordinary :=
  ⟨nofun, fun _ => h⟩

theorem Ordinary.of_kind {e : Error} (h : e.code.kind ≠ .execution)
    (hdetail : e.code = .malformed → e.detail ≠ "EXPECTED INDEX") : e.Ordinary := by
  refine ⟨?_, hdetail⟩
  intro hcode
  rw [hcode] at h
  exact h rfl

theorem Ordinary.locatedAt {e : Error} (h : e.Ordinary) (pos : Pos) :
    (e.locatedAt pos).Ordinary := by
  unfold Error.locatedAt
  split
  · exact h
  · exact ⟨h.code_ne, h.detail_ne⟩

theorem Ordinary.withSource {e : Error} (h : e.Ordinary) (source : String) :
    (e.withSource source).Ordinary := by
  unfold Error.withSource
  split
  · exact ⟨h.code_ne, h.detail_ne⟩
  · exact h

theorem unexpected_ne (s : String) : "UNEXPECTED " ++ s ≠ "EXPECTED INDEX" := by
  intro h
  have hchars := congrArg String.toList h
  rw [String.toList_append] at hchars
  cases hchars

end Error

/-- An expression without lists. -/
inductive Expr.Listless : Expr → Prop where
  | number (pos : Pos) (x : Float) : Listless (.number pos x)
  | text (pos : Pos) (s : String) : Listless (.text pos s)
  | bool (pos : Pos) (b : Bool) : Listless (.bool pos b)
  | mark (pos : Pos) (c : Char) : Listless (.mark pos c)
  | var (pos : Pos) (name : String) : Listless (.var pos name)
  | select (pos : Pos) (name : String) {first : List Expr} {more : List (List Expr)}
    (h : ∀ level ∈ first :: more, ∀ e ∈ level, Listless e) : Listless (.select pos name first more)
  | unary (pos : Pos) (op : UnaryOp) {e : Expr} (h : Listless e) : Listless (.unary pos op e)
  | binary (pos : Pos) (op : BinaryOp) {l r : Expr} (hl : Listless l) (hr : Listless r) :
    Listless (.binary pos op l r)

def Selector.Listless (s : Selector) : Prop :=
  ∀ level ∈ s.levels, ∀ e ∈ level, e.Listless

/-- A selector that has a level to assign to. -/
def Selector.Indexed (s : Selector) : Prop :=
  s.levels ≠ []

/-- An expression as readers build it: with proper names, numbers without a sign, no line breaks in
its strings, and no empty levels, unless there is nothing at all in the parentheses. -/
inductive Expr.Sound : Expr → Prop where
  | number (pos : Pos) {x : Float} (h : Number.Unsigned x) : Sound (.number pos x)
  | text (pos : Pos) {s : String} (h : ∀ c ∈ s.toList, isNewline c = false) : Sound (.text pos s)
  | bool (pos : Pos) (b : Bool) : Sound (.bool pos b)
  | var (pos : Pos) {name : String} (h : ProperName name) : Sound (.var pos name)
  | call (pos : Pos) {name : String} (h : ProperName name) : Sound (.select pos name [] [])
  | select (pos : Pos) {name : String} {first : List Expr} {more : List (List Expr)}
      (h : ProperName name) (hlevels : ∀ level ∈ first :: more, level ≠ [])
      (hsound : ∀ level ∈ first :: more, ∀ e ∈ level, Sound e) : Sound (.select pos name first more)
  | unary (pos : Pos) (op : UnaryOp) {e : Expr} (h : Sound e) : Sound (.unary pos op e)
  | binary (pos : Pos) (op : BinaryOp) {l r : Expr} (hl : Sound l) (hr : Sound r) :
      Sound (.binary pos op l r)

theorem Expr.Sound.listless {e : Expr} (h : e.Sound) : e.Listless := by
  induction h with
  | number pos h => exact .number pos _
  | text pos h => exact .text pos _
  | bool pos b => exact .bool pos b
  | var pos h => exact .var pos _
  | call pos h => exact .select pos _ (List.forall_mem_singleton.mpr nofun)
  | select pos h hlevels hsound ih => exact .select pos _ ih
  | unary pos op h ih => exact .unary pos op ih
  | binary pos op hl hr ihl ihr => exact .binary pos op ihl ihr

namespace Levels

/-- Levels that are not empty. -/
def Full (l : Levels) : Prop :=
  ∀ level ∈ l.first :: l.more, level ≠ [] ∧ ∀ e ∈ level, e.Sound

/-- Levels as readers build them. -/
def Sound (l : Levels) : Prop :=
  l = ⟨[], []⟩ ∨ l.Full

variable {l : Levels}

theorem Sound.listless (h : l.Sound) : l.selector.Listless := by
  rcases h with rfl | hfull
  · exact List.forall_mem_singleton.mpr nofun
  · exact fun level hlevel e he => ((hfull level hlevel).2 e he).listless

theorem Sound.select (h : l.Sound) {name : String} (hname : ProperName name) (pos : Pos) :
    (Expr.select pos name l.first l.more).Sound := by
  rcases h with rfl | hfull
  · exact .call pos hname
  · exact .select pos hname (fun level hlevel => (hfull level hlevel).1)
      fun level hlevel => (hfull level hlevel).2

theorem full_single {e : Expr} (h : e.Sound) : Full ⟨[e], []⟩ :=
  List.forall_mem_singleton.mpr ⟨List.cons_ne_nil _ _, List.forall_mem_singleton.mpr h⟩

theorem Full.cons {e : Expr} (h : e.Sound) (hl : l.Full) : Full ⟨e :: l.first, l.more⟩ := by
  obtain ⟨hfirst, hmore⟩ := List.forall_mem_cons.mp hl
  exact List.forall_mem_cons.mpr
    ⟨⟨List.cons_ne_nil _ _, List.forall_mem_cons.mpr ⟨h, hfirst.2⟩⟩, hmore⟩

theorem Full.level {e : Expr} (h : e.Sound) (hl : l.Full) : Full ⟨[e], l.first :: l.more⟩ :=
  List.forall_mem_cons.mpr ⟨full_single h [e] List.mem_cons_self, hl⟩

end Levels

/-! ### What a statement evaluates -/

def Guard.condition : Guard → Expr
  | .while e => e
  | .until e => e

def ForHeader.exprs {χ : Type} (h : ForHeader χ) : List Expr :=
  h.start :: h.limit :: h.step.toList

def Target.exprs : Target → List Expr
  | .var _ _ => []
  | .element _ _ selector => selector.levels.flatten

/-- The arguments of a command one by one. -/
def Expr.arguments : Option Expr → List Expr
  | none => []
  | some (.list _ items) => items
  | some e => [e]

/-- The expressions that a statement may evaluate, with those of its branches. -/
def Stmt.exprs {χ : Type} : Stmt χ → List Expr
  | command _ _ args _ => Expr.arguments args
  | assign _ _ value => [value]
  | assignElement _ _ selector value => value :: selector.levels.flatten
  | dim _ _ sizes => sizes
  | map _ _ => []
  | when _ condition taken => condition :: taken.exprs
  | choose _ condition taken otherwise => condition :: (taken.exprs ++ otherwise.exprs)
  | goto _ target => [target]
  | gosub _ target => [target]
  | onGoto _ index _ => [index]
  | onGosub _ index _ => [index]
  | .for _ header => header.exprs
  | next _ header => header.exprs
  | .do _ guard _ => (guard.map Guard.condition).toList
  | loop _ guard _ => (guard.map Guard.condition).toList
  | leave _ _ => []
  | read _ targets => targets.flatMap Target.exprs
  | .return _ => []
  | finish _ => []

def Stmt.Listless {χ : Type} (s : Stmt χ) : Prop :=
  ∀ e ∈ s.exprs, e.Listless

theorem Stmt.exprs_mapExit {χ υ : Type} (f : χ → υ) (s : Stmt χ) :
    (s.mapExit f).exprs = s.exprs := by
  induction s with
  | when pos condition taken ih => rw [mapExit, exprs, exprs, ih]
  | choose pos condition taken otherwise ih ih' => rw [mapExit, exprs, exprs, ih, ih']
  | _ => rfl

theorem Selector.Listless.flatten {s : Selector} (h : s.Listless) :
    ∀ e ∈ s.levels.flatten, e.Listless := by
  intro e he
  obtain ⟨level, hlevel, he⟩ := List.mem_flatten.mp he
  exact h level hlevel e he

/-- A lexer whose last token was scanned. -/
def Lexer.Proper (l : Lexer) : Prop :=
  ∀ lexeme ∈ l.last, lexeme.token.Proper

/-! ### Complaints about a text -/

/-- A complaint about a text: over its tokens or its grammar, and at a position in it. -/
structure Error.About (e : Error) (text : List Char) : Prop where
  kind_ne : e.code.kind ≠ .execution
  pos_in : ∃ p, e.pos = some p ∧ p.In text

/-- A complaint about a text as it is raised, before it shows a line. -/
structure Error.Raised (e : Error) (text : List Char) : Prop extends e.About text where
  excerpt : e.excerpt = none

/-- A lexer that stands in a text and has read its last token there. -/
structure Lexer.In (l : Lexer) (text : List Char) : Prop where
  cursor : l.cursor.In text
  last : ∀ lexeme ∈ l.last, lexeme.pos.In text

/-- A token as it is scanned in a text. -/
structure Lexeme.Scanned (lexeme : Lexeme) (text : List Char) : Prop where
  token : lexeme.token.Proper
  pos : lexeme.pos.In text

/-- A lexer in the course of reading a text. -/
structure Lexer.Reading (l : Lexer) (text : List Char) : Prop extends l.In text where
  proper : l.Proper

variable {text : List Char}

theorem Error.raised_malformed {pos : Pos} (h : pos.In text) (detail : String) :
    (malformed pos detail).Raised text :=
  ⟨⟨nofun, pos, rfl, h⟩, rfl⟩

namespace Lexer.Reading

variable {l : Lexer}

theorem start (source : String) : (Lexer.ofSource source).Reading source.toList where
  cursor := Stands.start _
  last _ h := absurd h (Option.not_mem_none _)
  proper _ h := absurd h (Option.not_mem_none _)

theorem skipLine (h : l.Reading text) : l.skipLine.Reading text := by
  have hskipped : ({ l with cursor := l.cursor.skipLine, held := false } : Lexer).Reading text :=
    ⟨⟨h.cursor.skipLine, h.last⟩, h.proper⟩
  unfold Lexer.skipLine
  split
  · split
    · exact h
    · exact hskipped
  · exact hskipped

theorem fill (h : l.Reading text) :
    match l.fill with
    | (.ok found, l') => (∀ lexeme ∈ found, lexeme.Scanned text) ∧ l'.Reading text
    | (.error e, _) => e.Ordinary ∧ e.Raised text := by
  unfold Lexer.fill
  cases l.held with
  | true => exact ⟨fun lexeme hl => ⟨h.proper lexeme hl, h.last lexeme hl⟩, h⟩
  | false =>
    have hscan := h.cursor.scan
    rcases hfound : l.cursor.scan with ⟨e | found, c⟩
    · rw [hfound] at hscan
      obtain ⟨hcode, hexcerpt, hpos⟩ := hscan
      have hkind : e.code.kind ≠ .execution := by
        rw [hcode]
        nofun
      have hmalformed : e.code ≠ .malformed := by
        rw [hcode]
        nofun
      exact ⟨.of_kind hkind fun h => absurd h hmalformed, ⟨hkind, hpos⟩, hexcerpt⟩
    · rw [hfound] at hscan
      obtain ⟨hc, hpos⟩ := hscan
      have hproper : ∀ lexeme ∈ found, lexeme.token.Proper := by
        rintro lexeme hlexeme
        obtain rfl := Option.mem_def.mp hlexeme
        exact Cursor.scan_proper hfound
      exact ⟨fun lexeme hl => ⟨hproper lexeme hl, hpos lexeme hl⟩, ⟨hc, hpos⟩, hproper⟩

end Lexer.Reading

namespace Parse

variable {α β : Type}

/-- A reader that stays in a text. Its results have a property, and it complains about the text, but not
about a missing index, unless it fails itself. -/
def Gives (text : List Char) (P : α → Prop) (x : Parse α) : Prop :=
  ∀ l : Lexer, l.Reading text →
    match x l with
    | .ok (a, l') => P a ∧ l'.Reading text
    | .error e => e.code = .internal ∨ e.Ordinary ∧ e.Raised text

namespace Gives

variable {P : α → Prop} {Q : β → Prop}

theorem of_pure {a : α} (h : P a) : Gives text P (pure a : Parse α) :=
  fun _ hl => ⟨h, hl⟩

theorem of_malformed {pos : Pos} (hpos : pos.In text) {detail : String}
    (h : detail ≠ "EXPECTED INDEX") : Gives text P (throw (.malformed pos detail) : Parse α) :=
  fun _ _ => .inr ⟨Error.ordinary_malformed pos h, Error.raised_malformed hpos detail⟩

theorem outOfFuel : Gives text P (outOfFuel : Parse α) :=
  fun _ _ => .inl rfl

theorem of_bind {x : Parse α} {f : α → Parse β} (hx : Gives text P x)
    (hf : ∀ a, P a → Gives text Q (f a)) : Gives text Q (x >>= f) := by
  intro l hl
  have hread := hx l hl
  cases h : x l with
  | error e =>
    rw [h] at hread
    rw [bind_of_error h]
    exact hread
  | ok r =>
    rw [h] at hread
    rw [bind_of_ok h]
    exact hf r.1 hread.1 r.2 hread.2

theorem after {x : Parse α} {f : α → Parse β} (hx : Gives text P x) (hf : ∀ a, Gives text Q (f a)) :
    Gives text Q (x >>= f) :=
  hx.of_bind fun a _ => hf a

theorem imp {P' : α → Prop} {x : Parse α} (hx : Gives text P x) (h : ∀ a, P a → P' a) :
    Gives text P' x := by
  intro l hl
  have hread := hx l hl
  revert hread
  rcases x l with e | ⟨a, l'⟩
  · exact id
  · exact And.imp_left (h a)

theorem any {x : Parse α} (hx : Gives text P x) : Gives text (fun _ => True) x :=
  hx.imp fun _ _ => trivial

theorem of_ite {c : Prop} [Decidable c] {x y : Parse α} (hx : Gives text P x)
    (hy : Gives text P y) : Gives text P (if c then x else y) := by
  split
  · exact hx
  · exact hy

theorem of_get {k : Lexer → Parse β} (hk : ∀ l : Lexer, l.pos.In text → Gives text Q (k l)) :
    Gives text Q (get >>= k) :=
  fun l hl => hk l hl.cursor.pos_in l hl

end Gives

/-! ### Tokens -/

/-- What is found was scanned in the text. -/
abbrev Found (text : List Char) (found : Option Lexeme) : Prop :=
  ∀ lexeme ∈ found, lexeme.Scanned text

theorem gives_peek : Gives text (Found text) peek := by
  intro l hl
  have hfill := hl.fill
  unfold peek ofLexer Lexer.peek
  revert hfill
  rcases l.fill with ⟨e | found, l'⟩
  · exact .inr
  · exact id

theorem gives_next : Gives text (Found text) next := by
  intro l hl
  have hfill := hl.fill
  unfold next ofLexer Lexer.next
  revert hfill
  rcases l.fill with ⟨e | found, l'⟩
  · exact .inr
  · rintro ⟨hfound, hl'⟩
    exact ⟨hfound, ⟨hl'.cursor, hl'.last⟩, hl'.proper⟩

theorem gives_pushback : Gives text (fun _ => True) pushback := by
  intro l hl
  unfold pushback Lexer.pushback
  cases l.held with
  | true => exact .inl rfl
  | false => exact ⟨trivial, ⟨hl.cursor, hl.last⟩, hl.proper⟩

theorem found_none : Found text none :=
  fun _ h => absurd h (Option.not_mem_none _)

theorem gives_peekOnLine : Gives text (Found text) peekOnLine := by
  apply gives_peek.of_bind
  intro found hfound
  cases found with
  | some lexeme => exact .of_ite (.of_pure found_none) (.of_pure hfound)
  | none => exact .of_pure found_none

theorem gives_peekToken : Gives text (fun _ => True) peekToken :=
  gives_peekOnLine.after fun _ => .of_pure trivial

theorem gives_peekOperator : Gives text (fun _ => True) peekOperator := by
  apply gives_peekOnLine.after
  intro lexeme
  split
  · exact .of_pure trivial
  · exact .of_pure trivial

theorem gives_missingPos : Gives text (·.In text) missingPos := by
  apply gives_peekOnLine.of_bind
  intro found hfound
  cases found with
  | some lexeme => exact .of_pure (hfound lexeme rfl).pos
  | none => exact .of_get fun _ hpos => .of_pure hpos

section Details

variable {detail : String} (h : detail ≠ "EXPECTED INDEX")
include h

theorem gives_nextOnLine : Gives text (·.Scanned text) (nextOnLine detail) := by
  apply gives_next.of_bind
  intro found hfound
  cases found with
  | some lexeme =>
    have hlexeme := hfound lexeme rfl
    exact .of_ite (.of_malformed hlexeme.pos h) (.of_pure hlexeme)
  | none => exact .of_get fun _ hpos => .of_malformed hpos h

theorem gives_expect (token : Token) : Gives text (fun _ => True) (expect token detail) :=
  (gives_nextOnLine h).of_bind fun _ hlexeme =>
    .of_ite (.of_pure trivial) (.of_malformed hlexeme.pos h)

theorem gives_ident : Gives text (fun _ => True) (ident detail) := by
  apply (gives_nextOnLine h).of_bind
  intro lexeme hlexeme
  split
  · exact .of_pure trivial
  · exact .of_malformed hlexeme.pos h

end Details

/-! ### Expressions -/

/-- A reader that finds a sound expression, or none. -/
abbrev GivesExpr (text : List Char) (x : Parse (Option Expr)) : Prop :=
  Gives text (fun e => ∀ e' ∈ e, e'.Sound) x

theorem Gives.of_none : GivesExpr text (pure none) :=
  .of_pure nofun

theorem Gives.of_some {e : Expr} (h : e.Sound) : GivesExpr text (pure (some e)) :=
  .of_pure fun _ he => Option.some.inj he ▸ h

theorem gives_required {x : Parse (Option Expr)} (hx : GivesExpr text x) :
    Gives text Expr.Sound (required x) := by
  apply hx.of_bind
  intro e he
  cases e with
  | some e => exact .of_pure (he e rfl)
  | none => exact gives_missingPos.of_bind fun _ hpos => .of_malformed hpos (by decide)

section Nested

variable {nested : Parse Expr} (h : Gives text Expr.Sound nested)
include h

theorem gives_selectorTail (n : Nat) : Gives text Levels.Full (selectorTail nested n) := by
  induction n with
  | zero => exact .outOfFuel
  | succ n ih =>
    apply h.of_bind
    intro e he
    apply (gives_nextOnLine (by decide)).of_bind
    intro lexeme hlexeme
    split
    · exact ih.of_bind fun rest hrest => .of_pure (hrest.cons he)
    · exact ih.of_bind fun rest hrest => .of_pure (hrest.level he)
    · exact .of_pure (Levels.full_single he)
    · exact .of_malformed hlexeme.pos (by decide)

theorem gives_selectorWith (n : Nat) : Gives text Levels.Sound (selectorWith nested n) := by
  apply gives_peekToken.after
  intro token
  split
  · exact gives_next.after fun _ => .of_pure (.inl rfl)
  · exact (gives_selectorTail h n).imp fun _ => .inr

theorem gives_atomic (n : Nat) : GivesExpr text (atomic nested n) := by
  have hback : GivesExpr text (pushback >>= fun _ => pure none) :=
    gives_pushback.after fun _ => .of_none
  rw [atomic_eq]
  apply gives_next.of_bind
  intro found hfound
  cases found with
  | none => exact .of_none
  | some lexeme =>
    have hproper := (hfound lexeme rfl).token
    apply Gives.of_ite hback
    unfold atomicFrom
    generalize lexeme.token = token at hproper
    split
    · apply h.of_bind
      intro e he
      exact (gives_expect (by decide) _).after fun _ => .of_some he
    · exact .of_some (.number _ hproper)
    · exact .of_some (.text _ hproper)
    · apply gives_peekToken.after
      intro token
      split
      · refine gives_next.after fun _ => (gives_selectorWith h n).of_bind fun selector hs => ?_
        exact .of_some (hs.select hproper _)
      · exact .of_some (.var _ hproper)
    · split
      · exact .of_some (.bool _ _)
      · exact hback
    · exact hback

theorem gives_powerTail (m n : Nat) {lhs : Expr} (hlhs : lhs.Sound) :
    Gives text Expr.Sound (powerTail (atomic nested m) n lhs) := by
  induction n generalizing lhs with
  | zero => exact .outOfFuel
  | succ n ih =>
    apply gives_peekOperator.after
    intro looked
    split
    · refine gives_next.after fun _ => (gives_required (gives_atomic h m)).of_bind fun rhs hrhs => ?_
      exact ih (.binary _ _ hlhs hrhs)
    · exact .of_pure hlhs

theorem gives_power (n : Nat) : GivesExpr text (power nested n) := by
  apply (gives_atomic h n).of_bind
  intro lhs hlhs
  cases lhs with
  | none => exact .of_none
  | some lhs =>
    dsimp only
    rw [map_eq_pure_bind]
    exact (gives_powerTail h n n (hlhs lhs rfl)).of_bind fun e he => .of_some he

theorem gives_operand (n : Nat) : GivesExpr text (operand nested n) := by
  apply gives_peekOperator.after
  intro looked
  split
  · split
    · refine gives_next.after fun _ => (gives_required (gives_power h n)).of_bind fun e he => ?_
      exact .of_some (.unary _ _ he)
    · exact gives_power h n
  · exact gives_power h n

theorem gives_climb (m n level : Nat) {lhs : Expr} (hlhs : lhs.Sound) :
    Gives text Expr.Sound (climb nested m n level lhs) := by
  induction n generalizing level lhs with
  | zero => exact .outOfFuel
  | succ n ih =>
    apply gives_peekOperator.after
    intro looked
    split
    · split
      · apply Gives.of_ite (.of_pure hlhs)
        refine gives_next.after fun _ => (gives_required (gives_operand h m)).of_bind fun first hf => ?_
        exact (ih _ hf).of_bind fun rhs hrhs => ih _ (.binary _ _ hlhs hrhs)
      · exact .of_pure hlhs
    · exact .of_pure hlhs

end Nested

theorem gives_expression (n : Nat) : GivesExpr text (expression n) := by
  induction n with
  | zero => exact .outOfFuel
  | succ n ih =>
    apply (gives_operand (gives_required ih) n).of_bind
    intro lhs hlhs
    cases lhs with
    | none => exact .of_none
    | some lhs =>
      dsimp only
      rw [map_eq_pure_bind]
      exact (gives_climb (gives_required ih) n n 1 (hlhs lhs rfl)).of_bind fun e he => .of_some he

theorem gives_expr (n : Nat) : Gives text Expr.Sound (expr n) :=
  gives_required (gives_expression n)

theorem gives_selector (n : Nat) : Gives text Levels.Sound (selector n) :=
  gives_selectorWith (gives_expr n) n

theorem gives_items (keep : Bool) (m n : Nat) :
    Gives text (fun es => ∀ e ∈ es, e.Listless) (items keep m n) := by
  induction n with
  | zero => exact .outOfFuel
  | succ n ih =>
    apply (gives_expression m).of_bind
    intro e he
    cases e with
    | none => exact .of_pure nofun
    | some e =>
      have hmore (pos : Pos) (c : Char) : Gives text (fun es => ∀ e ∈ es, Expr.Listless e) (do
          let _ ← next
          let rest ← items keep m n
          pure (if keep then e :: .mark pos c :: rest else e :: rest)) := by
        refine gives_next.after fun _ => ih.of_bind fun rest hrest => .of_pure ?_
        split
        · exact List.forall_mem_cons.mpr
            ⟨(he e rfl).listless, List.forall_mem_cons.mpr ⟨.mark _ _, hrest⟩⟩
        · exact List.forall_mem_cons.mpr ⟨(he e rfl).listless, hrest⟩
      apply gives_peekOnLine.after
      intro looked
      split
      · exact hmore _ _
      · exact hmore _ _
      · refine .of_pure fun e' he' => ?_
        rcases List.mem_singleton.mp he' with rfl
        exact (he _ rfl).listless

theorem gives_arguments (keep : Bool) (n : Nat) :
    Gives text (fun args => ∀ e ∈ Expr.arguments args, e.Listless) (arguments keep n) := by
  apply (gives_items keep n n).of_bind
  intro es hes
  split
  · exact .of_pure nofun
  · -- A single argument is not wrapped in a list, and is none itself.
    rename_i e
    have he := hes e List.mem_cons_self
    refine .of_pure fun e' he' => ?_
    cases he <;> exact hes e' he'
  · exact .of_pure hes

/-! ### Fuel -/

theorem ident_ok {detail : String} {l l' : Lexer} {r : Pos × String}
    (h : ident detail l = .ok (r, l')) : l'.size < l.size := by
  obtain ⟨lexeme, l₁, hnext, hrest⟩ := bind_eq_ok.mp h
  have hlt := nextOnLine_ok hnext
  obtain ⟨token, pos, past, lead⟩ := lexeme
  cases token with
  | ident name =>
    cases hrest
    exact hlt
  | _ => cases hrest

theorem blames_ident (s : Nat) (detail : String) : Blames s (ident detail) := by
  apply (blames_nextOnLine s detail).of_bind (shrinks_nextOnLine detail)
  intro lexeme
  split
  · exact .of_pure _
  · exact .of_malformed _ _

theorem blames_expression (n : Nat) : Blames n (expression n) := by
  intro l e hl he
  rw [Layers.parseExpression_eq n n l hl hl] at he
  exact Layers.blames_expression n l e hl he

theorem shrinks_expr (n : Nat) : Shrinks (expr n) :=
  shrinks_required (Layers.shrinks_parseExpression n)

theorem blames_expr (n : Nat) : Blames n (expr n) :=
  blames_required (blames_expression n) (Layers.shrinks_parseExpression n)

theorem next_of_looked {l l₁ l₂ : Lexer} {lexeme : Lexeme} {taken : Option Lexeme}
    (hlook : peekOnLine l = .ok (some lexeme, l₁)) (hnext : next l₁ = .ok (taken, l₂)) :
    l₂.size < l.size := by
  obtain ⟨hheld, hlast, hle⟩ := peekOnLine_ok hlook
  have htaken : taken.isSome := by
    rw [next_of_held hheld] at hnext
    cases hnext
    cases h : l₁.last with
    | none =>
      rw [h] at hlast
      cases hlast
    | some _ => rfl
  have hlt := (next_ok hnext).2
  rw [if_pos htaken] at hlt
  omega

theorem shrinks_items (keep : Bool) (m n : Nat) : Shrinks (items keep m n) := by
  induction n with
  | zero => exact .of_throw _
  | succ n ih =>
    apply (Layers.shrinks_parseExpression m).of_bind
    intro e
    split
    · exact .of_pure _
    · apply shrinks_peekOnLine.of_bind
      intro looked
      split
      · exact shrinks_next.of_bind fun _ => ih.of_bind fun _ => .of_pure _
      · exact shrinks_next.of_bind fun _ => ih.of_bind fun _ => .of_pure _
      · exact .of_pure _

theorem blames_items (keep : Bool) (m n : Nat) : Blames (min m n) (items keep m n) := by
  induction n with
  | zero =>
    intro l e hl
    omega
  | succ n ih =>
    intro l err hl he
    rcases bind_eq_error.mp he with he | ⟨first, l₁, hfirst, he⟩
    · exact blames_expression m l err (by omega) he
    have h₁ := Layers.shrinks_parseExpression m l first l₁ hfirst
    split at he
    · cases he
    rcases bind_eq_error.mp he with he | ⟨looked, l₂, hlook, he⟩
    · exact blames_peekOnLine (m + 1) l₁ err (by omega) he
    have hmore : ∀ {lexeme : Lexeme} {f : List Expr → List Expr}, looked = some lexeme →
        (next >>= fun _ => items keep m n >>= fun rest => pure (f rest)) l₂ = .error err →
        err.code.kind ≠ .execution := by
      rintro lexeme f rfl he
      have h₂ := (peekOnLine_ok hlook).2.2
      rcases bind_eq_error.mp he with he | ⟨taken, l₃, hnext, he⟩
      · exact blames_next (m + 1) l₂ err (by omega) he
      have h₃ := next_of_looked hlook hnext
      exact (ih.of_bind (shrinks_items keep m n) fun _ => .of_pure _) l₃ err (by omega) he
    split at he
    · exact hmore rfl he
    · exact hmore rfl he
    · cases he

theorem shrinks_arguments (keep : Bool) (n : Nat) : Shrinks (arguments keep n) := by
  apply (shrinks_items keep n n).of_bind
  intro es
  split
  · exact .of_pure _
  · exact .of_pure _
  · exact .of_pure _

theorem blames_arguments (keep : Bool) (n : Nat) : Blames n (arguments keep n) := by
  apply ((blames_items keep n n).mono (Nat.le_of_eq (Nat.min_self n).symm)).of_bind
    (shrinks_items keep n n)
  intro es
  split
  · exact .of_pure _
  · exact .of_pure _
  · exact .of_pure _

end Parse

end LineBasic
