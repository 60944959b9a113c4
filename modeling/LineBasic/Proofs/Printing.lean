import LineBasic.Proofs.Moving
import LineBasic.Proofs.Spelling
import LineBasic.Proofs.StatementReading

/-!
# Printed expressions read back

An expression that was read from a program and is printed again reads as itself, up to positions.
The tokens of the printed form determine it: every operation between two operands brings its own
parentheses, so no precedence decides, and everything that stands beside `^` or behind a sign is
atomic.
-/

namespace LineBasic

set_option autoImplicit false

open Parse

/-! ### Lexers with known tokens -/

/-- The tokens that a lexer gives up to the end of its source, none of them first in its line. -/
def Lexer.Gives (tokens : List Token) (l : Lexer) : Prop :=
  match tokens with
  | [] => ∃ c, l.fill = (.ok none, ⟨c, none, true⟩)
  | token :: tokens => ∃ pos past c, l.fill = (.ok (some ⟨token, pos, past, false⟩),
      ⟨c, some ⟨token, pos, past, false⟩, true⟩) ∧ c.Yields tokens

theorem Cursor.Yields.gives {tokens : List Token} {c : Cursor} (h : c.Yields tokens)
    (last : Option Lexeme) : Lexer.Gives tokens ⟨c, last, false⟩ := by
  cases tokens with
  | nil =>
    cases hscan : c.scan with
    | mk result c' =>
      unfold Yields at h
      rw [hscan] at h
      obtain rfl := h
      exact ⟨c', by simp [Lexer.fill, hscan]⟩
  | cons token tokens =>
    obtain ⟨pos, past, c', hscan, hrest⟩ := h
    exact ⟨pos, past, c', by simp [Lexer.fill, hscan], hrest⟩

theorem Cursor.Yields.length_le {tokens : List Token} {c : Cursor} (h : c.Yields tokens) :
    tokens.length ≤ c.rest.length := by
  induction tokens generalizing c with
  | nil => exact Nat.zero_le _
  | cons token tokens ih =>
    obtain ⟨pos, past, c', hscan, hrest⟩ := h
    have hlength := scan_length_le hscan
    have hmore := ih hrest
    simp only [Option.isSome_some, if_true] at hlength
    simp only [List.length_cons]
    omega

namespace Lexer.Gives

variable {token : Token} {tokens : List Token} {l : Lexer}

theorem length_le (h : l.Gives tokens) : tokens.length ≤ l.size := by
  cases tokens with
  | nil => exact Nat.zero_le _
  | cons token tokens =>
    obtain ⟨pos, past, c, hfill, hrest⟩ := h
    have hsize := (fill_size_le hfill).2.2
    have hmore := hrest.length_le
    simp only [size, Bool.true_and, Option.isSome_some, if_true] at hsize
    simp only [List.length_cons, size]
    omega

theorem next (h : l.Gives (token :: tokens)) :
    ∃ pos past l', Parse.next l = .ok (some ⟨token, pos, past, false⟩, l') ∧ l'.Gives tokens := by
  obtain ⟨pos, past, c, hfill, hrest⟩ := h
  exact ⟨pos, past, _, next_of_fill hfill, hrest.gives _⟩

theorem nextOnLine (h : l.Gives (token :: tokens)) (detail : String) :
    ∃ pos past l', Parse.nextOnLine detail l = .ok (⟨token, pos, past, false⟩, l') ∧
      l'.Gives tokens := by
  obtain ⟨pos, past, l', hnext, hrest⟩ := h.next
  refine ⟨pos, past, l', ?_, hrest⟩
  rw [Parse.nextOnLine, bind_of_ok hnext]
  rfl

theorem expect (h : l.Gives (token :: tokens)) (detail : String) :
    ∃ l', Parse.expect token detail l = .ok ((), l') ∧ l'.Gives tokens := by
  obtain ⟨pos, past, l', hnext, hrest⟩ := h.nextOnLine detail
  refine ⟨l', ?_, hrest⟩
  rw [Parse.expect, bind_of_ok hnext, if_pos rfl]
  rfl

theorem peek (h : l.Gives tokens) :
    ∃ o l', Parse.peek l = .ok (o, l') ∧ o.map (·.token) = tokens.head? ∧
      (∀ lexeme ∈ o, lexeme.lead = false) ∧ l'.Gives tokens := by
  have hheld {c : Cursor} {o : Option Lexeme} :
      (⟨c, o, true⟩ : Lexer).fill = (.ok o, ⟨c, o, true⟩) := by
    simp [Lexer.fill]
  have hpeek {o : Option Lexeme} {m : Lexer} (hfill : l.fill = (.ok o, m)) :
      Parse.peek l = .ok (o, m) := by
    simp [Parse.peek, ofLexer, Lexer.peek, hfill]
  cases tokens with
  | nil =>
    obtain ⟨c, hfill⟩ := h
    exact ⟨none, _, hpeek hfill, rfl, by simp, ⟨c, hheld⟩⟩
  | cons token tokens =>
    obtain ⟨pos, past, c, hfill, hrest⟩ := h
    refine ⟨some ⟨token, pos, past, false⟩, _, hpeek hfill, rfl, ?_, ⟨pos, past, c, hheld, hrest⟩⟩
    rintro _ ⟨⟩
    rfl

theorem peekOnLine (h : l.Gives tokens) :
    ∃ o l', Parse.peekOnLine l = .ok (o, l') ∧ o.map (·.token) = tokens.head? ∧ l'.Gives tokens := by
  obtain ⟨o, l', hpeek, ho, hlead, hrest⟩ := h.peek
  refine ⟨o, l', ?_, ho, hrest⟩
  rw [Parse.peekOnLine, bind_of_ok hpeek]
  cases o with
  | none => rfl
  | some lexeme =>
    dsimp only
    rw [hlead lexeme rfl]
    rfl

theorem peekToken (h : l.Gives tokens) :
    ∃ l', Parse.peekToken l = .ok (tokens.head?, l') ∧ l'.Gives tokens := by
  obtain ⟨o, l', hpeek, ho, hrest⟩ := h.peekOnLine
  refine ⟨l', ?_, hrest⟩
  rw [Parse.peekToken, bind_of_ok hpeek, ← ho]
  rfl

theorem peekOperator_some {op : Operator} (h : l.Gives (.operator op :: tokens)) :
    ∃ pos l', Parse.peekOperator l = .ok (some (op, pos), l') ∧
      l'.Gives (.operator op :: tokens) := by
  obtain ⟨o, l', hpeek, ho, hrest⟩ := h.peekOnLine
  obtain ⟨⟨token, pos, past, lead⟩, rfl, htoken⟩ := Option.map_eq_some_iff.mp ho
  obtain rfl : token = .operator op := htoken
  refine ⟨pos, l', ?_, hrest⟩
  rw [Parse.peekOperator, bind_of_ok hpeek]
  rfl

theorem peekOperator_none (h : l.Gives tokens) (hop : ∀ op, tokens.head? ≠ some (.operator op)) :
    ∃ l', Parse.peekOperator l = .ok (none, l') ∧ l'.Gives tokens := by
  obtain ⟨o, l', hpeek, ho, hrest⟩ := h.peekOnLine
  refine ⟨l', ?_, hrest⟩
  rw [Parse.peekOperator, bind_of_ok hpeek]
  split
  · exact absurd ho.symm (hop _)
  · rfl

end Lexer.Gives

/-! ### Expressions from their tokens -/

namespace Expr

/-- The expression without its positions. -/
def bare : Expr → Expr :=
  mapPos fun _ => ⟨0, 0⟩

def bareList : List Expr → List Expr :=
  mapPosList fun _ => ⟨0, 0⟩

def bareLevels : List (List Expr) → List (List Expr) :=
  mapPosLevels fun _ => ⟨0, 0⟩

@[simp] theorem bareList_cons (e : Expr) (es : List Expr) :
    bareList (e :: es) = e.bare :: bareList es := rfl

@[simp] theorem bareLevels_cons (level : List Expr) (more : List (List Expr)) :
    bareLevels (level :: more) = bareList level :: bareLevels more := rfl

@[simp] theorem bare_select (pos : Pos) (name : String) (first : List Expr)
    (more : List (List Expr)) :
    (select pos name first more).bare = select ⟨0, 0⟩ name (bareList first) (bareLevels more) := rfl

@[simp] theorem bare_unary (pos : Pos) (op : UnaryOp) (e : Expr) :
    (unary pos op e).bare = unary ⟨0, 0⟩ op e.bare := rfl

@[simp] theorem bare_binary (pos : Pos) (op : BinaryOp) (l r : Expr) :
    (binary pos op l r).bare = binary ⟨0, 0⟩ op l.bare r.bare := rfl

/-- No printed expression starts with a closing parenthesis, and only a sign starts with an
operator. -/
theorem Legible.tokens_cons {e : Expr} (h : e.Legible) : ∃ token tokens,
    e.tokens = token :: tokens ∧ token ≠ .rightParen ∧
      (e.isUnary = false → ∀ op, token ≠ .operator op) := by
  cases h with
  | unary => exact ⟨_, _, rfl, nofun, nofun⟩
  | _ => exact ⟨_, _, rfl, nofun, fun _ => nofun⟩

end Expr

/-- A reader that finds an expression like `e` and leaves the tokens `rest`. -/
def Recovers (x : Parse (Option Expr)) (l : Lexer) (e : Expr) (rest : List Token) : Prop :=
  ∃ e' l', x l = .ok (some e', l') ∧ e'.bare = e.bare ∧ l'.Gives rest

theorem Recovers.required {x : Parse (Option Expr)} {l : Lexer} {e : Expr} {rest : List Token}
    (h : Recovers x l e rest) :
    ∃ e' l', Parse.required x l = .ok (e', l') ∧ e'.bare = e.bare ∧ l'.Gives rest := by
  obtain ⟨e', l', hx, hbare, hrest⟩ := h
  refine ⟨e', l', ?_, hbare, hrest⟩
  rw [Parse.required, bind_of_ok hx]
  rfl

section

variable {e : Expr} {rest tokens : List Token} {l : Lexer} {n : Nat}

theorem powerTail_done (h : l.Gives rest) (hcaret : rest.head? ≠ some (.operator .caret))
    (hn : 0 < n) (atom : Parse (Option Expr)) (lhs : Expr) :
    ∃ l', powerTail atom n lhs l = .ok (lhs, l') ∧ l'.Gives rest := by
  obtain ⟨o, l', hpeek, hrest, ho⟩ : ∃ o l', peekOperator l = .ok (o, l') ∧ l'.Gives rest ∧
      ∀ pos, o ≠ some (.caret, pos) := by
    by_cases hop : ∃ op, rest.head? = some (.operator op)
    · obtain ⟨op, hop⟩ := hop
      obtain ⟨more, rfl⟩ := List.head?_eq_some_iff.mp hop
      obtain ⟨pos, l', hpeek, hrest⟩ := h.peekOperator_some
      refine ⟨_, l', hpeek, hrest, fun pos' hsame => hcaret ?_⟩
      cases hsame
      rfl
    · obtain ⟨l', hpeek, hrest⟩ := h.peekOperator_none fun op hhead => hop ⟨op, hhead⟩
      exact ⟨none, l', hpeek, hrest, nofun⟩
  obtain ⟨k, rfl⟩ := Nat.exists_eq_add_one.mpr hn
  refine ⟨l', ?_, hrest⟩
  rw [powerTail, bind_of_ok hpeek]
  split
  · exact absurd rfl (ho _)
  · rfl

theorem climb_done (h : l.Gives rest) (hop : ∀ op, rest.head? ≠ some (.operator op)) (hn : 0 < n)
    (nested : Parse Expr) (m level : Nat) (lhs : Expr) :
    ∃ l', climb nested m n level lhs l = .ok (lhs, l') ∧ l'.Gives rest := by
  obtain ⟨l', hpeek, hrest⟩ := h.peekOperator_none hop
  obtain ⟨k, rfl⟩ := Nat.exists_eq_add_one.mpr hn
  refine ⟨l', ?_, hrest⟩
  rw [climb, bind_of_ok hpeek]
  rfl

theorem power_of_tail {lhs : Expr} {l₁ l₂ : Lexer}
    (hfirst : atomic (expr n) n l = .ok (some lhs, l₁))
    (htail : powerTail (atomic (expr n) n) n lhs l₁ = .ok (e, l₂)) :
    power (expr n) n l = .ok (some e, l₂) := by
  rw [power, bind_of_ok hfirst]
  dsimp only
  rw [map_eq_pure_bind, bind_of_ok htail]
  rfl

theorem expression_of_climb {lhs : Expr} {l₁ l₂ : Lexer}
    (hfirst : operand (expr n) n l = .ok (some lhs, l₁))
    (hclimb : climb (expr n) n n 1 lhs l₁ = .ok (e, l₂)) :
    expression (n + 1) l = .ok (some e, l₂) := by
  rw [expr] at hfirst hclimb
  rw [expression, bind_of_ok hfirst]
  dsimp only
  rw [map_eq_pure_bind, bind_of_ok hclimb]
  rfl

theorem Recovers.power (h : Recovers (atomic (expr n) n) l e rest)
    (hcaret : rest.head? ≠ some (.operator .caret)) (hn : 0 < n) :
    Recovers (power (expr n) n) l e rest := by
  obtain ⟨e', l₁, hread, hbare, hrest⟩ := h
  obtain ⟨l₂, htail, hrest⟩ := powerTail_done hrest hcaret hn (atomic (expr n) n) e'
  exact ⟨e', l₂, power_of_tail hread htail, hbare, hrest⟩

theorem Recovers.operand (hgives : l.Gives tokens)
    (hop : ∀ op, tokens.head? ≠ some (.operator op))
    (h : ∀ l', l'.Gives tokens → Recovers (Parse.power (expr n) n) l' e rest) :
    Recovers (operand (expr n) n) l e rest := by
  obtain ⟨l₁, hpeek, hgives⟩ := hgives.peekOperator_none hop
  obtain ⟨e', l₂, hread, hbare, hrest⟩ := h l₁ hgives
  refine ⟨e', l₂, ?_, hbare, hrest⟩
  rw [Parse.operand, bind_of_ok hpeek]
  exact hread

theorem Recovers.expression (h : Recovers (Parse.operand (expr n) n) l e rest)
    (hop : ∀ op, rest.head? ≠ some (.operator op)) (hn : 0 < n) :
    Recovers (expression (n + 1)) l e rest := by
  obtain ⟨e', l₁, hread, hbare, hrest⟩ := h
  obtain ⟨l₂, hclimb, hrest⟩ := climb_done hrest hop hn (expr n) n 1 e'
  exact ⟨e', l₂, expression_of_climb hread hclimb, hbare, hrest⟩

end

namespace Expr

/-- Readers find the expression in front of what cannot belong to it. The fuel covers the tokens. -/
structure Recovered (e : Expr) : Prop where
  atomic : e.isUnary = false → ∀ {n rest l}, (e.tokens ++ rest).length ≤ n →
    l.Gives (e.tokens ++ rest) → rest.head? ≠ some .leftParen →
      Recovers (Parse.atomic (expr n) n) l e rest
  operand : ∀ {n rest l}, (e.tokens ++ rest).length ≤ n → l.Gives (e.tokens ++ rest) →
    rest.head? ≠ some .leftParen → rest.head? ≠ some (.operator .caret) →
      Recovers (Parse.operand (expr n) n) l e rest

variable {n : Nat} {rest : List Token} {l : Lexer} {e : Expr}

theorem Legible.tokens_length (h : e.Legible) : 0 < e.tokens.length := by
  obtain ⟨token, tokens, htokens, -, -⟩ := h.tokens_cons
  rw [htokens]
  exact Nat.zero_lt_succ _

theorem Legible.head_not_operator (h : e.Legible) (he : e.isUnary = false) (op : Operator) :
    (e.tokens ++ rest).head? ≠ some (.operator op) := by
  obtain ⟨token, tokens, htokens, -, hop⟩ := h.tokens_cons
  rw [htokens]
  exact fun hhead => hop he op (Option.some.inj hhead)

theorem Recovered.of_atomic (h : e.Legible) (he : e.isUnary = false)
    (hatomic : ∀ {n rest l}, (e.tokens ++ rest).length ≤ n → l.Gives (e.tokens ++ rest) →
      rest.head? ≠ some .leftParen → Recovers (Parse.atomic (expr n) n) l e rest) :
    e.Recovered := by
  refine ⟨fun _ => hatomic, fun {n rest l} hlength hgives hparen hcaret => ?_⟩
  have hn : 0 < n := by
    have := h.tokens_length
    rw [List.length_append] at hlength
    omega
  exact .operand hgives (h.head_not_operator he) fun l' hl' =>
    (hatomic hlength hl' hparen).power hcaret hn

theorem Recovered.unary (pos : Pos) (op : UnaryOp) (he : e.isUnary = false) (h : e.Recovered) :
    (unary pos op e).Recovered := by
  refine ⟨nofun, fun {n rest l} hlength hgives hparen hcaret => ?_⟩
  rw [tokens, List.cons_append] at hlength hgives
  obtain ⟨at', l₁, hpeek, hgives⟩ := hgives.peekOperator_some
  obtain ⟨_, _, l₂, hnext, hgives⟩ := hgives.next
  rw [List.length_cons] at hlength
  have hpower : Recovers (Parse.power (expr n) n) l₂ e rest :=
    (h.atomic he (by omega) hgives hparen).power hcaret (by omega)
  obtain ⟨e', l₃, hrequired, hbare, hrest⟩ := hpower.required
  have hleads : op.operator.leads? = some op := by cases op <;> rfl
  refine ⟨.unary at' op e', l₃, ?_, by simp [hbare], hrest⟩
  rw [Parse.operand, bind_of_ok hpeek]
  dsimp only
  rw [hleads]
  dsimp only
  rw [bind_of_ok hnext, bind_of_ok hrequired]
  rfl

theorem Recovered.expression (h : e.Recovered) (hlegible : e.Legible)
    (hlength : (e.tokens ++ rest).length < n) (hgives : l.Gives (e.tokens ++ rest))
    (hparen : rest.head? ≠ some .leftParen) (hop : ∀ op, rest.head? ≠ some (.operator op)) :
    Recovers (Parse.expression n) l e rest := by
  have htokens := hlegible.tokens_length
  rw [List.length_append] at hlength
  obtain ⟨k, rfl⟩ : ∃ k, n = k + 1 := ⟨n - 1, by omega⟩
  refine .expression (h.operand ?_ hgives hparen (hop _)) hop (by omega)
  rw [List.length_append]
  omega

theorem Recovered.power (pos : Pos) {r : Expr} (he : e.Recovered) (hr : r.Recovered)
    (hlegible : e.Legible) (hunary : e.isUnary = false ∧ r.isUnary = false) {tokens : List Token}
    (htokens : tokens = e.tokens ++ .operator .caret :: (r.tokens ++ .rightParen :: rest))
    (hlength : tokens.length < n) (hgives : l.Gives tokens) :
    Recovers (Parse.expression n) l (binary pos .power e r) (.rightParen :: rest) := by
  subst htokens
  have htokens := hlegible.tokens_length
  simp only [List.length_append, List.length_cons] at hlength
  obtain ⟨k, rfl⟩ : ∃ k, n = k + 1 + 1 := ⟨n - 2, by omega⟩
  refine .expression (.operand hgives (hlegible.head_not_operator hunary.1) fun l₁ hgives => ?_)
    nofun (by omega)
  obtain ⟨e', l₂, hfirst, hbare, hgives⟩ :=
    he.atomic (n := k + 1) hunary.1 (by simp; omega) hgives nofun
  obtain ⟨at', l₃, hpeek, hgives⟩ := hgives.peekOperator_some
  obtain ⟨_, _, l₄, hnext, hgives⟩ := hgives.next
  obtain ⟨r', l₅, hsecond, hbare', hgives⟩ :=
    (hr.atomic (n := k + 1) hunary.2 (by simp; omega) hgives nofun).required
  obtain ⟨l₆, htail, hgives⟩ := powerTail_done hgives nofun (n := k) (by omega)
    (Parse.atomic (expr (k + 1)) (k + 1)) (.binary at' .power e' r')
  refine ⟨.binary at' .power e' r', l₆, power_of_tail hfirst ?_, by simp [hbare, hbare'], hgives⟩
  rw [powerTail, bind_of_ok hpeek]
  dsimp only
  rw [bind_of_ok hnext, bind_of_ok hsecond]
  exact htail

theorem Recovered.join (pos : Pos) {op : BinaryOp} {r : Expr} (he : e.Recovered) (hr : r.Recovered)
    (hlegible : e.Legible) (hop : op ≠ .power) {tokens : List Token}
    (htokens : tokens = e.tokens ++ .operator op.operator :: (r.tokens ++ .rightParen :: rest))
    (hlength : tokens.length < n) (hgives : l.Gives tokens) :
    Recovers (Parse.expression n) l (binary pos op e r) (.rightParen :: rest) := by
  subst htokens
  have htokens := hlegible.tokens_length
  simp only [List.length_append, List.length_cons] at hlength
  obtain ⟨k, rfl⟩ : ∃ k, n = k + 1 + 1 := ⟨n - 2, by omega⟩
  obtain ⟨tightness, hjoins, htight, hcaret⟩ : ∃ tightness,
      op.operator.joins? = some (op, tightness) ∧ ¬tightness < 1 ∧ op.operator ≠ .caret := by
    cases op with
    | power => exact absurd rfl hop
    | _ => exact ⟨_, rfl, by decide, nofun⟩
  obtain ⟨e', l₁, hfirst, hbare, hgives⟩ := he.operand (n := k + 1) (by simp; omega) hgives nofun
    fun hhead => hcaret (Token.operator.inj (Option.some.inj hhead))
  obtain ⟨at', l₂, hpeek, hgives⟩ := hgives.peekOperator_some
  obtain ⟨_, _, l₃, hnext, hgives⟩ := hgives.next
  obtain ⟨r', l₄, hsecond, hbare', hgives⟩ :=
    (hr.operand (n := k + 1) (by simp; omega) hgives nofun nofun).required
  obtain ⟨l₅, hright, hgives⟩ := climb_done hgives nofun (n := k) (by omega) (expr (k + 1)) (k + 1)
    (tightness + 1) r'
  obtain ⟨l₆, hclimb, hgives⟩ := climb_done hgives nofun (n := k) (by omega) (expr (k + 1)) (k + 1)
    1 (.binary at' op e' r')
  refine ⟨.binary at' op e' r', l₆, expression_of_climb hfirst ?_, by simp [hbare, hbare'], hgives⟩
  rw [climb, bind_of_ok hpeek]
  dsimp only
  rw [hjoins]
  dsimp only
  rw [if_neg htight, bind_of_ok hnext, bind_of_ok hsecond, bind_of_ok hright]
  exact hclimb

theorem Recovered.binary (pos : Pos) (op : BinaryOp) {r : Expr}
    (hpower : op = .power → e.isUnary = false ∧ r.isUnary = false) (he : e.Legible) (hr : r.Legible)
    (hread : e.Recovered) (hread' : r.Recovered) : (binary pos op e r).Recovered := by
  refine .of_atomic (.binary pos op hpower he hr) rfl fun {n rest l} hlength hgives hparen => ?_
  rw [tokens, List.cons_append] at hlength hgives
  obtain ⟨at', past, l₁, hnext, hgives⟩ := hgives.next
  have htokens : (e.tokens ++ .operator op.operator :: (r.tokens ++ [.rightParen])) ++ rest =
      e.tokens ++ .operator op.operator :: (r.tokens ++ .rightParen :: rest) := by simp
  have hinner : Recovers (Parse.expression n) l₁ (.binary pos op e r) (.rightParen :: rest) := by
    by_cases hop : op = .power
    · subst hop
      exact hread.power pos hread' he (hpower rfl) htokens hlength hgives
    · exact hread.join pos hread' he hop htokens hlength hgives
  obtain ⟨e', l₂, hinner, hbare, hgives⟩ := hinner.required
  obtain ⟨l₃, hexpect, hrest⟩ := hgives.expect "EXPECTED RIGHT PARENTHESIS"
  refine ⟨e', l₃, ?_, hbare, hrest⟩
  rw [Parse.atomic, bind_of_ok hnext]
  change (expr n >>= _) l₁ = _
  rw [expr, bind_of_ok hinner, bind_of_ok hexpect]
  rfl

/-- The levels of a selector. Each turn takes one expression and the separator behind it. -/
theorem selectorTail_of_gives {first : List Expr} {more : List (List Expr)} {j : Nat}
    (hlevels : ∀ level ∈ first :: more, level ≠ [])
    (hread : ∀ level ∈ first :: more, ∀ e ∈ level, e.Legible ∧ e.Recovered)
    (hlength : (tokensList first ++ (tokensLevels more ++ .rightParen :: rest)).length < n)
    (hturns : (tokensList first ++ (tokensLevels more ++ .rightParen :: rest)).length ≤ j)
    (hgives : l.Gives (tokensList first ++ (tokensLevels more ++ .rightParen :: rest))) :
    ∃ s l', selectorTail (expr n) j l = .ok (s, l') ∧ bareList s.first = bareList first ∧
      bareLevels s.more = bareLevels more ∧ l'.Gives rest := by
  induction j generalizing first more l with
  | zero => simp at hturns
  | succ j ih =>
    obtain ⟨hfirst, hmore⟩ := List.forall_mem_cons.mp hlevels
    obtain ⟨hreadFirst, hreadMore⟩ := List.forall_mem_cons.mp hread
    obtain ⟨e, es, rfl⟩ := List.exists_cons_of_ne_nil hfirst
    obtain ⟨he, hes⟩ := List.forall_mem_cons.mp hreadFirst
    rw [tokensList, List.append_assoc] at hlength hturns hgives
    have hhead : (tokensTail es ++ (tokensLevels more ++ .rightParen :: rest)).head? ≠ some .leftParen ∧
        ∀ op, (tokensTail es ++ (tokensLevels more ++ .rightParen :: rest)).head? ≠ some (.operator op) := by
      cases es with
      | nil => cases more <;> simp [tokensTail, tokensLevels]
      | cons => simp [tokensTail]
    obtain ⟨e', l₁, hexpr, hbare, hgives⟩ :=
      (he.2.expression he.1 hlength hgives hhead.1 hhead.2).required
    have htokens := he.1.tokens_length
    rw [List.length_append] at hlength hturns
    rw [selectorTail, expr, bind_of_ok hexpr]
    cases es with
    | cons e₂ es =>
      rw [tokensTail, ← tokensList, List.cons_append] at hlength hturns hgives
      rw [List.length_cons] at hlength hturns
      obtain ⟨_, _, l₂, hnext, hgives⟩ := hgives.nextOnLine "EXPECTED RIGHT PARENTHESIS"
      obtain ⟨s, l₃, htail, hbareFirst, hbareMore, hrest⟩ := @ih l₂ (e₂ :: es) more
        (List.forall_mem_cons.mpr ⟨List.cons_ne_nil _ _, hmore⟩) (List.forall_mem_cons.mpr ⟨hes, hreadMore⟩)
        (by omega) (by omega) hgives
      refine ⟨⟨e' :: s.first, s.more⟩, l₃, ?_, by simp [hbare, hbareFirst], hbareMore, hrest⟩
      rw [bind_of_ok hnext]
      dsimp only
      rw [← expr, bind_of_ok htail]
      rfl
    | nil =>
      rw [tokensTail, List.nil_append] at hlength hturns hgives
      cases more with
      | nil =>
        obtain ⟨_, _, l₂, hnext, hgives⟩ := hgives.nextOnLine "EXPECTED RIGHT PARENTHESIS"
        refine ⟨⟨[e'], []⟩, l₂, ?_, by simp [hbare], rfl, hgives⟩
        rw [bind_of_ok hnext]
        rfl
      | cons level more =>
        rw [tokensLevels, List.cons_append, List.append_assoc] at hlength hturns hgives
        rw [List.length_cons] at hlength hturns
        obtain ⟨_, _, l₂, hnext, hgives⟩ := hgives.nextOnLine "EXPECTED RIGHT PARENTHESIS"
        obtain ⟨s, l₃, htail, hbareFirst, hbareMore, hrest⟩ := ih hmore hreadMore
          (by omega) (by omega) hgives
        refine ⟨⟨[e'], s.first :: s.more⟩, l₃, ?_, by simp [hbare], by simp [hbareFirst, hbareMore],
          hrest⟩
        rw [bind_of_ok hnext]
        dsimp only
        rw [← expr, bind_of_ok htail]
        rfl

theorem Recovered.of_selector (pos : Pos) {name : String} {first : List Expr}
    {more : List (List Expr)} (h : (select pos name first more).Legible)
    (hselector : ∀ {n rest l},
      (tokensList first ++ (tokensLevels more ++ .rightParen :: rest)).length < n →
      l.Gives (tokensList first ++ (tokensLevels more ++ .rightParen :: rest)) →
        ∃ s l', selectorWith (expr n) n l = .ok (s, l') ∧ bareList s.first = bareList first ∧
          bareLevels s.more = bareLevels more ∧ l'.Gives rest) :
    (select pos name first more).Recovered := by
  refine .of_atomic h rfl fun {n rest l} hlength hgives hparen => ?_
  have htokens : (select pos name first more).tokens ++ rest = .ident name :: .leftParen ::
      (tokensList first ++ (tokensLevels more ++ .rightParen :: rest)) := by
    simp [tokens]
  rw [htokens] at hlength hgives
  simp only [List.length_cons] at hlength
  obtain ⟨at', past, l₁, hnext, hgives⟩ := hgives.next
  obtain ⟨l₂, hpeek, hgives⟩ := hgives.peekToken
  obtain ⟨_, _, l₃, hopen, hgives⟩ := hgives.next
  obtain ⟨s, l₄, hread, hfirst, hmore, hrest⟩ := hselector (n := n) (by omega) hgives
  refine ⟨.select at' name s.first s.more, l₄, ?_,
    by simp [hfirst, hmore], hrest⟩
  rw [Parse.atomic, bind_of_ok hnext]
  change (peekToken >>= _) l₁ = _
  rw [bind_of_ok hpeek]
  change (Parse.next >>= _) l₂ = _
  rw [bind_of_ok hopen, bind_of_ok hread]
  rfl

theorem Recovered.of_literal {token : Token} (f : Pos → Expr) (h : e.Legible)
    (he : e.isUnary = false) (htokens : e.tokens = [token]) (hf : ∀ pos, (f pos).bare = e.bare)
    (hread : ∀ n l pos past l', Parse.next l = .ok (some ⟨token, pos, past, false⟩, l') →
      Parse.atomic (expr n) n l = .ok (some (f pos), l')) : e.Recovered := by
  refine .of_atomic h he fun {n rest l} _ hgives _ => ?_
  rw [htokens, List.cons_append] at hgives
  obtain ⟨pos, past, l₁, hnext, hrest⟩ := hgives.next
  exact ⟨f pos, l₁, hread n l pos past l₁ hnext, hf pos, hrest⟩

/-- Every legible expression is found in front of what cannot belong to it. -/
theorem Legible.recovered (h : e.Legible) : e.Recovered := by
  induction h with
  | @number pos x h =>
    refine .of_literal (.number · x) (.number pos h) rfl rfl (fun _ => rfl) ?_
    intro n l pos past l' hnext
    rw [Parse.atomic, bind_of_ok hnext]
    rfl
  | @text pos s h =>
    refine .of_literal (.text · s) (.text pos h) rfl rfl (fun _ => rfl) ?_
    intro n l pos past l' hnext
    rw [Parse.atomic, bind_of_ok hnext]
    rfl
  | bool pos b =>
    refine .of_literal (.bool · b) (.bool pos b) rfl rfl (fun _ => rfl) ?_
    intro n l pos past l' hnext
    rw [Parse.atomic, bind_of_ok hnext]
    cases b <;> rfl
  | @var pos name h =>
    refine .of_atomic (.var pos h) rfl fun {n rest l} hlength hgives hparen => ?_
    rw [tokens, List.cons_append, List.nil_append] at hgives
    obtain ⟨at', past, l₁, hnext, hgives⟩ := hgives.next
    obtain ⟨l₂, hpeek, hrest⟩ := hgives.peekToken
    refine ⟨.var at' name, l₂, ?_, rfl, hrest⟩
    rw [Parse.atomic, bind_of_ok hnext]
    change (peekToken >>= _) l₁ = _
    rw [bind_of_ok hpeek]
    generalize rest.head? = next at hparen
    split
    · exact absurd rfl hparen
    · rfl
  | call pos h =>
    refine .of_selector pos (.call pos h) fun {n rest l} hlength hgives => ?_
    have hclose : l.Gives (.rightParen :: rest) := hgives
    obtain ⟨l₁, hpeek, hgives⟩ := hclose.peekToken
    obtain ⟨_, _, l₂, hnext, hrest⟩ := hgives.next
    refine ⟨⟨[], []⟩, l₂, ?_, rfl, rfl, hrest⟩
    rw [selectorWith, bind_of_ok hpeek]
    change (Parse.next >>= _) l₁ = _
    rw [bind_of_ok hnext]
    rfl
  | @select pos name first more h hlevels hlegible ih =>
    refine .of_selector pos (.select pos h hlevels hlegible) fun {n rest l} hlength hgives => ?_
    have hhead : (tokensList first ++ (tokensLevels more ++ .rightParen :: rest)).head? ≠
        some .rightParen := by
      obtain ⟨e, es, rfl⟩ := List.exists_cons_of_ne_nil (hlevels first (by simp))
      obtain ⟨token, tokens, htokens, hparen, -⟩ :=
        (hlegible (e :: es) List.mem_cons_self e List.mem_cons_self).tokens_cons
      simpa [tokensList, htokens] using hparen
    obtain ⟨l₁, hpeek, hgives⟩ := hgives.peekToken
    obtain ⟨s, l₂, hread, hbare⟩ := selectorTail_of_gives hlevels
      (fun level hlevel e he => ⟨hlegible level hlevel e he, ih level hlevel e he⟩) hlength
      (Nat.le_of_lt hlength) hgives
    refine ⟨s, l₂, ?_, hbare⟩
    rw [selectorWith, bind_of_ok hpeek]
    generalize List.head? _ = next at hhead
    split
    · exact absurd rfl hhead
    · exact hread
  | unary pos op he h ih => exact .unary pos op he ih
  | binary pos op hpower hl hr ihl ihr => exact .binary pos op hpower hl hr ihl ihr

end Expr

end LineBasic
