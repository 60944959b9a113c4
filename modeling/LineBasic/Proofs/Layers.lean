import LineBasic.Proofs.Readers

/-!
# The grammar of expressions, one level per row

Rows of binary operators bind tighter from top to bottom: `or`; `and`; equality; comparison; sums;
products. Below them stands at most one operator in front of an operand, and below that the powers of
atomic expressions. A reader with one level per row is the plain rendering of this table; the parser
climbs all rows of binary operators in a single loop. The two are equal: on every lexer they give
the same tree or the same failure and leave the lexer in the same state.
-/

namespace LineBasic

set_option autoImplicit false

open Parse

namespace Layers

/-- The operators of a row, with the operations they stand for. -/
abbrev Row := Operator → Option BinaryOp

def disjunctions : Row
  | .or => some .or
  | _ => none

def conjunctions : Row
  | .and => some .and
  | _ => none

def equalities : Row
  | .equal => some .equal
  | .notEqual => some .notEqual
  | _ => none

def comparisons : Row
  | .less => some .less
  | .lessEqual => some .lessEqual
  | .greater => some .greater
  | .greaterEqual => some .greaterEqual
  | _ => none

def sums : Row
  | .plus => some .add
  | .minus => some .subtract
  | _ => none

def products : Row
  | .multiply => some .multiply
  | .divide => some .divide
  | .divideInt => some .divideInt
  | .mod => some .modulus
  | .percent => some .modulus
  | _ => none

def powers : Row
  | .caret => some .power
  | _ => none

/-- The operators that may stand in front of an operand. -/
def signs : Operator → Option UnaryOp
  | .not => some .not
  | .minus => some .negate
  | .percent => some .floor
  | .tilde => some .round
  | .bang => some .ceiling
  | _ => none

/-- Joins `lhs` to further operands of the level below, from left to right. -/
def rowTail (row : Row) (below : Parse (Option Expr)) : Nat → Expr → Parse Expr
  | 0, _ => outOfFuel
  | n + 1, lhs => do
    match ← peekOperator with
    | some (op, pos) =>
      match row op with
      | some op => do
        let _ ← next
        let rhs ← required below
        rowTail row below n (.binary pos op lhs rhs)
      | none => pure lhs
    | none => pure lhs

/-- The level of a row over the level below it. -/
def level (row : Row) (n : Nat) (below : Parse (Option Expr)) : Parse (Option Expr) := do
  match ← below with
  | some lhs => some <$> rowTail row below n lhs
  | none => pure none

/-- At most one sign in front of what the level below reads. -/
def signed (below : Parse (Option Expr)) : Parse (Option Expr) := do
  match ← peekOperator with
  | some (op, pos) =>
    match signs op with
    | some op => do
      let _ ← next
      let e ← required below
      pure (some (.unary pos op e))
    | none => below
  | none => below

/-- An expression by the table of rows. What stands in parentheses is an expression again. -/
def expression : Nat → Parse (Option Expr)
  | 0 => outOfFuel
  | n + 1 =>
    level disjunctions n <| level conjunctions n <| level equalities n <| level comparisons n <|
      level sums n <| level products n <| signed <| level powers n <|
        atomic (required (expression n)) n

/-! ### Levels as readers -/

/-- The operator of a row that follows, as far as it was looked at. -/
def upcoming (row : Row) (l : Lexer) : Option (BinaryOp × Pos) :=
  l.operator?.bind fun (op, pos) => (row op).map (·, pos)

theorem rowTail_stop {row : Row} {below : Parse (Option Expr)} {n : Nat} {lhs : Expr} {l : Lexer}
    (hheld : l.held = true) (h : upcoming row l = none) :
    rowTail row below (n + 1) lhs l = .ok (lhs, l) := by
  rw [rowTail, bind_of_ok (peekOperator_of_held hheld)]
  unfold upcoming at h
  cases hop : l.operator? with
  | none => rfl
  | some looked =>
    cases hrow : row looked.1 with
    | none => simp [hrow]
    | some op => simp [hop, hrow] at h

theorem rowTail_turn {row : Row} {below : Parse (Option Expr)} {n : Nat} {lhs : Expr} {l : Lexer}
    {op : BinaryOp} {pos : Pos} (hheld : l.held = true) (h : upcoming row l = some (op, pos)) :
    rowTail row below (n + 1) lhs l =
      (next >>= fun _ => required below >>= fun rhs =>
        rowTail row below n (.binary pos op lhs rhs)) l := by
  rw [rowTail, bind_of_ok (peekOperator_of_held hheld)]
  unfold upcoming at h
  cases hop : l.operator? with
  | none => simp [hop] at h
  | some looked =>
    cases hrow : row looked.1 with
    | none => simp [hop, hrow] at h
    | some op' =>
      simp only [hop, hrow, Option.bind_some, Option.map_some, Option.some.injEq,
        Prod.mk.injEq] at h
      obtain ⟨rfl, rfl⟩ := h
      simp [hrow]

theorem next_of_upcoming {row : Row} {l : Lexer} {op : BinaryOp × Pos} (hheld : l.held = true)
    (h : upcoming row l = some op) : ∃ lexeme l', next l = .ok (lexeme, l') ∧ l'.size < l.size := by
  obtain ⟨looked, hop, -⟩ := Option.bind_eq_some_iff.mp h
  exact next_of_operator hheld hop

theorem rowTail_peek {row : Row} {below : Parse (Option Expr)} {n : Nat} {lhs : Expr} (l : Lexer) :
    rowTail row below (n + 1) lhs l =
      (peekOperator >>= fun _ => rowTail row below (n + 1) lhs) l := by
  conv => lhs; rw [rowTail]
  refine bind_congr rfl fun looked l' hlooked => ?_
  obtain ⟨hheld, rfl, -⟩ := peekOperator_ok hlooked
  rw [rowTail, bind_of_ok (peekOperator_of_held hheld)]

theorem shrinks_rowTail {row : Row} {below : Parse (Option Expr)} (h : Shrinks below) (n : Nat) :
    ∀ lhs, Shrinks (rowTail row below n lhs) := by
  induction n with
  | zero => exact fun _ => .of_throw _
  | succ n ih =>
    intro lhs
    refine shrinks_peekOperator.of_bind fun looked => ?_
    cases looked with
    | none => exact .of_pure _
    | some looked =>
      dsimp only
      cases row looked.1 with
      | none => exact .of_pure _
      | some op =>
        exact shrinks_next.of_bind fun _ => (shrinks_required h).of_bind fun rhs => ih _

theorem consumes_level (row : Row) {below : Parse (Option Expr)} (h : Consumes below) (n : Nat) :
    Consumes (level row n below) := by
  constructor
  · refine h.shrinks.of_bind fun lhs => ?_
    cases lhs with
    | none => exact .of_pure _
    | some lhs => exact (shrinks_rowTail h.shrinks n lhs).of_map some
  · intro l e l' he
    obtain ⟨lhs, m, hlhs, htail⟩ := bind_eq_ok.mp he
    cases lhs with
    | none => simp at htail
    | some lhs =>
      have hm := h.takes l lhs m hlhs
      have hl' := (shrinks_rowTail h.shrinks n lhs).of_map some m _ l' htail
      omega

theorem consumes_signed {below : Parse (Option Expr)} (h : Consumes below) :
    Consumes (signed below) := by
  constructor
  · refine shrinks_peekOperator.of_bind fun looked => ?_
    cases looked with
    | none => exact h.shrinks
    | some looked =>
      dsimp only
      cases signs looked.1 with
      | none => exact h.shrinks
      | some op =>
        exact shrinks_next.of_bind fun _ => (shrinks_required h.shrinks).of_bind
          fun e => .of_pure _
  · intro l e l' he
    obtain ⟨looked, m, hlooked, hrest⟩ := bind_eq_ok.mp he
    obtain ⟨hheld, rfl, hm⟩ := peekOperator_ok hlooked
    cases hop : m.operator? with
    | none =>
      rw [hop] at hrest
      have hl' := h.takes m e l' hrest
      omega
    | some looked =>
      rw [hop] at hrest
      dsimp only at hrest
      cases hsign : signs looked.1 with
      | none =>
        rw [hsign] at hrest
        have hl' := h.takes m e l' hrest
        omega
      | some op =>
        simp only [hsign] at hrest
        obtain ⟨lexeme, m₁, hnext, hm₁⟩ := next_of_operator hheld hop
        rw [bind_of_ok hnext] at hrest
        have hl' := ((shrinks_required h.shrinks).of_bind
          fun e => Shrinks.of_pure (some (Expr.unary looked.2 op e))) m₁ _ l' hrest
        omega

theorem blames_rowTail (row : Row) {s : Nat} {below : Parse (Option Expr)} (h : Blames s below)
    (hbelow : Shrinks below) :
    ∀ n lhs, Blames (min (s + 1) n) (rowTail row below n lhs) := by
  intro n
  induction n with
  | zero => intro lhs l e hl; omega
  | succ n ih =>
    intro lhs l e hl he
    rw [rowTail_peek] at he
    rcases bind_eq_error.mp he with he | ⟨looked, l₁, hlook, he⟩
    · exact blames_peekOperator _ l e hl he
    obtain ⟨hheld, -, h₁⟩ := peekOperator_ok hlook
    cases hup : upcoming row l₁ with
    | none =>
      rw [rowTail_stop hheld hup] at he
      simp at he
    | some op =>
      obtain ⟨lexeme, l₂, hnext, h₂⟩ := next_of_upcoming hheld hup
      rw [rowTail_turn hheld hup, bind_of_ok hnext] at he
      rcases bind_eq_error.mp he with he | ⟨rhs, l₃, hrhs, he⟩
      · exact blames_required h hbelow l₂ e (by omega) he
      have h₃ := shrinks_required hbelow l₂ rhs l₃ hrhs
      exact ih _ l₃ e (by omega) he

theorem blames_level (row : Row) {s n : Nat} {below : Parse (Option Expr)} (h : Blames s below)
    (hbelow : Consumes below) (hn : s ≤ n + 1) : Blames s (level row n below) := by
  intro l e hl he
  rcases bind_eq_error.mp he with he | ⟨lhs, l₁, hlhs, he⟩
  · exact h l e hl he
  cases lhs with
  | none => simp at he
  | some lhs =>
    have h₁ := hbelow.takes l lhs l₁ hlhs
    dsimp only at he
    rw [map_eq_pure_bind] at he
    rcases bind_eq_error.mp he with he | ⟨tail, l₂, -, he⟩
    · exact blames_rowTail row h hbelow.shrinks n lhs l₁ e (by omega) he
    · simp at he

theorem blames_signed {s : Nat} {below : Parse (Option Expr)} (h : Blames s below)
    (hbelow : Shrinks below) : Blames s (signed below) := by
  refine (blames_peekOperator s).of_bind shrinks_peekOperator fun looked => ?_
  cases looked with
  | none => exact h
  | some looked =>
    dsimp only
    cases signs looked.1 with
    | none => exact h
    | some op =>
      exact (blames_next s).of_bind shrinks_next fun _ =>
        (blames_required h hbelow).of_bind (shrinks_required hbelow) fun _ => .of_pure _

theorem rowTail_congr (row : Row) {s : Nat} {x y : Parse (Option Expr)} (hxy : AgreeBelow s x y)
    (hx : Shrinks x) :
    ∀ (n k : Nat) (lhs : Expr) (l : Lexer), l.size ≤ s → l.size < n → l.size < k →
      rowTail row x n lhs l = rowTail row y k lhs l := by
  intro n
  induction n with
  | zero => intro k lhs l _ hn; omega
  | succ n ih =>
    intro k lhs l hs hn hk
    cases k with
    | zero => omega
    | succ k =>
      rw [rowTail_peek l, rowTail_peek l]
      refine bind_congr rfl fun _ l₁ hlook => ?_
      obtain ⟨hheld, -, h₁⟩ := peekOperator_ok hlook
      cases hup : upcoming row l₁ with
      | none => rw [rowTail_stop hheld hup, rowTail_stop hheld hup]
      | some op =>
        obtain ⟨lexeme, l₂, hnext, h₂⟩ := next_of_upcoming hheld hup
        rw [rowTail_turn hheld hup, rowTail_turn hheld hup, bind_of_ok hnext, bind_of_ok hnext]
        refine bind_congr (required_congr (hxy l₂ (by omega))) fun rhs l₃ hrhs => ?_
        have h₃ := shrinks_required hx l₂ rhs l₃ hrhs
        exact ih k _ l₃ (by omega) (by omega) (by omega)

theorem level_agree (row : Row) {s n k : Nat} {x y : Parse (Option Expr)} (hxy : AgreeBelow s x y)
    (hx : Consumes x) (hn : s ≤ n + 1) (hk : s ≤ k + 1) :
    AgreeBelow s (level row n x) (level row k y) := by
  intro l hl
  refine bind_congr (hxy l hl) fun lhs l' hlhs => ?_
  cases lhs with
  | none => rfl
  | some lhs =>
    have hl' := hx.takes l lhs l' hlhs
    have htail := rowTail_congr row hxy hx.shrinks n k lhs l' (by omega) (by omega)
      (by omega)
    exact congrArg (Except.map (Prod.map some id)) htail

theorem signed_agree {s : Nat} {x y : Parse (Option Expr)} (hxy : AgreeBelow s x y) :
    AgreeBelow s (signed x) (signed y) := by
  intro l hl
  refine bind_congr rfl fun looked l₁ hlook => ?_
  have h₁ := (peekOperator_ok hlook).2.2
  cases looked with
  | none => exact hxy l₁ (by omega)
  | some looked =>
    dsimp only
    cases signs looked.1 with
    | none => exact hxy l₁ (by omega)
    | some op =>
      refine bind_congr rfl fun _ l₂ hnext => ?_
      have h₂ := shrinks_next l₁ _ l₂ hnext
      exact bind_congr (required_congr (hxy l₂ (by omega))) fun _ _ _ => rfl

/-! ### The operands -/

theorem leads?_eq_signs : Operator.leads? = signs := by
  funext op
  cases op <;> rfl

theorem powerTail_eq (atom : Parse (Option Expr)) (n : Nat) :
    ∀ lhs, powerTail atom n lhs = rowTail powers atom n lhs := by
  induction n with
  | zero => intro lhs; rfl
  | succ n ih =>
    intro lhs
    funext l
    refine bind_congr rfl fun looked l' _ => ?_
    cases looked with
    | none => rfl
    | some looked =>
      obtain ⟨op, pos⟩ := looked
      cases op with
      | caret =>
        dsimp only [powers]
        refine bind_congr rfl fun _ _ _ => bind_congr rfl fun rhs _ _ => ?_
        rw [ih]
      | _ => rfl

theorem power_eq (nested : Parse Expr) (n : Nat) :
    power nested n = level powers n (atomic nested n) := by
  funext l
  refine bind_congr rfl fun lhs l' _ => ?_
  cases lhs with
  | none => rfl
  | some lhs =>
    dsimp only
    rw [powerTail_eq]

theorem operand_eq (nested : Parse Expr) (n : Nat) :
    operand nested n = signed (level powers n (atomic nested n)) := by
  unfold operand signed
  rewrite [power_eq, leads?_eq_signs]
  rfl

end Layers

end LineBasic
