import LineBasic.Proofs.Layers

/-!
# Climbing precedences is descending through rows

The parser climbs: one loop takes operators of every tightness from a given one on, and reads each
right operand by climbing from the next tightness. Seen from the table of rows, a climb from a
tightness on is what all rows from that one downwards add to a first operand, the tightest row first.
A row that has ended leaves no operator of its own or of a tighter row in front, so the rows that a
climb starts again after each operand have nothing to do.
-/

namespace LineBasic

set_option autoImplicit false

open Parse

namespace Layers

/-! ### Rows by tightness -/

/-- The operators of one tightness. -/
def joinsAt (tightness : Nat) : Row := fun op =>
  op.joins?.bind fun (joined, t) => if t = tightness then some joined else none

theorem disjunctions_eq : disjunctions = joinsAt 1 := by
  funext op
  cases op <;> rfl

theorem conjunctions_eq : conjunctions = joinsAt 2 := by
  funext op
  cases op <;> rfl

theorem equalities_eq : equalities = joinsAt 3 := by
  funext op
  cases op <;> rfl

theorem comparisons_eq : comparisons = joinsAt 4 := by
  funext op
  cases op <;> rfl

theorem sums_eq : sums = joinsAt 5 := by
  funext op
  cases op <;> rfl

theorem products_eq : products = joinsAt 6 := by
  funext op
  cases op <;> rfl

/-- The tightest `height` rows over the operands. -/
def rows (operand : Parse (Option Expr)) (n : Nat) : Nat → Parse (Option Expr)
  | 0 => operand
  | height + 1 => level (joinsAt (6 - height)) n (rows operand n height)

/-- What the tightest `height` rows add to a first operand. -/
def tails (operand : Parse (Option Expr)) (n : Nat) : Nat → Expr → Parse Expr
  | 0, lhs => pure lhs
  | height + 1, lhs => do
    let lhs ← tails operand n height lhs
    rowTail (joinsAt (6 - height)) (rows operand n height) n lhs

/-- No operator follows that binds at least as tightly as `tightness`. -/
def Settled (tightness : Nat) (l : Lexer) : Prop :=
  ∀ t, tightness ≤ t → upcoming (joinsAt t) l = none

theorem joins?_le {op : Operator} {joined : BinaryOp} {t : Nat}
    (h : op.joins? = some (joined, t)) : 1 ≤ t ∧ t ≤ 6 := by
  cases op <;> simp only [Operator.joins?, Option.some.injEq, Prod.mk.injEq, reduceCtorEq] at h <;>
    omega

theorem upcoming_joinsAt {l : Lexer} {t : Nat} {joined : BinaryOp} {pos : Pos} :
    upcoming (joinsAt t) l = some (joined, pos) ↔
      ∃ op, l.operator? = some (op, pos) ∧ op.joins? = some (joined, t) := by
  unfold upcoming joinsAt
  constructor
  · intro h
    obtain ⟨⟨op, pos'⟩, hop, hjoin⟩ := Option.bind_eq_some_iff.mp h
    obtain ⟨joined', hjoined', heq⟩ := Option.map_eq_some_iff.mp hjoin
    obtain ⟨⟨joined'', t'⟩, hjoins, hif⟩ := Option.bind_eq_some_iff.mp hjoined'
    obtain ⟨rfl, rfl⟩ := Prod.mk.inj heq
    dsimp only at hif
    split at hif
    · rename_i ht
      obtain rfl := Option.some.inj hif
      subst ht
      exact ⟨op, hop, hjoins⟩
    · simp at hif
  · rintro ⟨op, hop, hjoins⟩
    simp [hop, hjoins]

theorem settled_of_seven (l : Lexer) : Settled 7 l := by
  intro t ht
  rw [Option.eq_none_iff_forall_ne_some]
  rintro ⟨joined, pos⟩ hup
  obtain ⟨op, -, hjoins⟩ := upcoming_joinsAt.mp hup
  have hle := joins?_le hjoins
  omega

theorem settled_above {l : Lexer} {t : Nat} {op : BinaryOp × Pos}
    (h : upcoming (joinsAt t) l = some op) : Settled (t + 1) l := by
  obtain ⟨joined, pos⟩ := op
  obtain ⟨op, hop, hjoins⟩ := upcoming_joinsAt.mp h
  intro t' ht'
  rw [Option.eq_none_iff_forall_ne_some]
  rintro ⟨joined', pos'⟩ hup
  obtain ⟨op', hop', hjoins'⟩ := upcoming_joinsAt.mp hup
  rw [hop] at hop'
  obtain ⟨rfl, -⟩ := Prod.mk.inj (Option.some.inj hop')
  rw [hjoins] at hjoins'
  obtain ⟨-, rfl⟩ := Prod.mk.inj (Option.some.inj hjoins')
  omega

/-- A reader that has looked past the expression it found. -/
def LooksPast (x : Parse (Option Expr)) : Prop :=
  ∀ l e l', x l = .ok (some e, l') → l'.held = true

theorem rowTail_held {row : Row} {below : Parse (Option Expr)} {n : Nat} :
    ∀ {lhs e : Expr} {l l' : Lexer}, rowTail row below n lhs l = .ok (e, l') → l'.held = true := by
  induction n with
  | zero => intro lhs e l l' h; simp [rowTail] at h
  | succ n ih =>
    intro lhs e l l' h
    rw [rowTail_peek] at h
    obtain ⟨looked, m, hlook, hrest⟩ := bind_eq_ok.mp h
    have hheld := (peekOperator_ok hlook).1
    cases hup : upcoming row m with
    | none =>
      rw [rowTail_stop hheld hup] at hrest
      obtain ⟨-, rfl⟩ := Prod.mk.inj (Except.ok.inj hrest)
      exact hheld
    | some op =>
      rw [rowTail_turn hheld hup] at hrest
      obtain ⟨_, m₁, -, h₁⟩ := bind_eq_ok.mp hrest
      obtain ⟨rhs, m₂, -, h₂⟩ := bind_eq_ok.mp h₁
      exact ih h₂

theorem map_some_eq_ok {x : Parse Expr} {l l' : Lexer} {e : Expr}
    (h : (some <$> x) l = .ok (some e, l')) : x l = .ok (e, l') := by
  rw [map_eq_pure_bind] at h
  obtain ⟨a, m, ha, hpure⟩ := bind_eq_ok.mp h
  obtain ⟨ha', rfl⟩ := Prod.mk.inj (Except.ok.inj hpure)
  obtain rfl := Option.some.inj ha'
  exact ha

theorem required_eq_ok {x : Parse (Option Expr)} {l l' : Lexer} {e : Expr}
    (h : required x l = .ok (e, l')) : x l = .ok (some e, l') := by
  obtain ⟨a, m, ha, hrest⟩ := bind_eq_ok.mp h
  cases a with
  | some a =>
    obtain ⟨rfl, rfl⟩ := Prod.mk.inj (Except.ok.inj hrest)
    exact ha
  | none =>
    obtain ⟨pos, m', -, hthrow⟩ := bind_eq_ok.mp hrest
    simp at hthrow

theorem looksPast_level (row : Row) (n : Nat) (below : Parse (Option Expr)) :
    LooksPast (level row n below) := by
  intro l e l' h
  obtain ⟨lhs, m, -, htail⟩ := bind_eq_ok.mp h
  cases lhs with
  | none => simp at htail
  | some lhs => exact rowTail_held (map_some_eq_ok htail)

theorem looksPast_signed {below : Parse (Option Expr)} (h : LooksPast below) :
    LooksPast (signed below) := by
  intro l e l' he
  obtain ⟨looked, m, -, hrest⟩ := bind_eq_ok.mp he
  cases looked with
  | none => exact h m e l' hrest
  | some looked =>
    dsimp only at hrest
    cases hsign : signs looked.1 with
    | none =>
      simp only [hsign] at hrest
      exact h m e l' hrest
    | some op =>
      simp only [hsign] at hrest
      obtain ⟨_, m₁, -, h₁⟩ := bind_eq_ok.mp hrest
      obtain ⟨operand, m₂, hoperand, h₂⟩ := bind_eq_ok.mp h₁
      obtain ⟨-, rfl⟩ := Prod.mk.inj (Except.ok.inj h₂)
      exact h m₁ operand m₂ (required_eq_ok hoperand)

section Climbing

variable (operand : Parse (Option Expr)) (n : Nat)

theorem rows_apply (height : Nat) (l : Lexer) :
    rows operand n height l = (operand >>= fun
      | some lhs => some <$> tails operand n height lhs
      | none => pure none) l := by
  induction height generalizing l with
  | zero =>
    have hid : (operand >>= pure) l = operand l := by rw [bind_pure]
    refine hid.symm.trans (bind_congr rfl fun lhs l' _ => ?_)
    cases lhs <;> rfl
  | succ height ih =>
    rw [rows, level]
    cases ho : operand l with
    | error e => rw [bind_of_error ho, bind_of_error (by rw [ih, bind_of_error ho])]
    | ok p =>
      obtain ⟨lhs, m⟩ := p
      rw [bind_of_ok ho]
      have hrows := ih l
      rw [bind_of_ok ho] at hrows
      cases lhs with
      | none => rw [bind_of_ok hrows]
      | some lhs =>
        dsimp only at hrows ⊢
        rw [tails, map_bind]
        cases ht : tails operand n height lhs m with
        | error e =>
          have hmap : (some <$> tails operand n height lhs) m = .error e := by
            rw [map_eq_pure_bind, bind_of_error ht]
          rw [bind_of_error ht, bind_of_error (hrows.trans hmap)]
        | ok q =>
          have hmap : (some <$> tails operand n height lhs) m = .ok (some q.1, q.2) := by
            rw [map_eq_pure_bind, bind_of_ok ht]
            rfl
          rw [bind_of_ok ht, bind_of_ok (hrows.trans hmap)]

theorem required_rows (height : Nat) (l : Lexer) :
    required (rows operand n height) l =
      (required operand >>= tails operand n height) l := by
  unfold required
  rw [bind_assoc]
  have hrows := rows_apply operand n height l
  cases ho : operand l with
  | error e =>
    rw [bind_of_error ho] at hrows ⊢
    rw [bind_of_error hrows]
  | ok p =>
    obtain ⟨lhs, m⟩ := p
    rw [bind_of_ok ho] at hrows ⊢
    cases lhs with
    | none =>
      rw [bind_of_ok hrows]
      dsimp only
      cases hpos : missingPos m with
      | error e => rw [bind_of_error hpos, bind_of_error (by rw [bind_of_error hpos])]
      | ok q => rw [bind_of_ok hpos, bind_of_error (by rw [bind_of_ok hpos]; rfl)]; rfl
    | some lhs =>
      dsimp only at hrows ⊢
      rw [pure_bind]
      cases ht : tails operand n height lhs m with
      | error e =>
        refine bind_of_error (hrows.trans ?_)
        rw [map_eq_pure_bind, bind_of_error ht]
      | ok q =>
        have hmap : (some <$> tails operand n height lhs) m = .ok (some q.1, q.2) := by
          rw [map_eq_pure_bind, bind_of_ok ht]
          rfl
        exact bind_of_ok (hrows.trans hmap)

variable {operand}

theorem consumes_rows (h : Consumes operand) (height : Nat) : Consumes (rows operand n height) := by
  induction height with
  | zero => exact h
  | succ height ih => exact consumes_level _ ih n

theorem shrinks_tails (h : Consumes operand) (height : Nat) :
    ∀ lhs, Shrinks (tails operand n height lhs) := by
  induction height with
  | zero => exact fun lhs => .of_pure lhs
  | succ height ih =>
    exact fun lhs => (ih lhs).of_bind fun e =>
      shrinks_rowTail (consumes_rows n h height).shrinks n e

variable {n}

/-- Rows that bind at least as tightly as the next operator would have to are passed over. -/
theorem tails_stop {height : Nat} {lhs : Expr} {l : Lexer} (hheight : height ≤ 6)
    (hheld : l.held = true) (h : Settled (7 - height) l) :
    tails operand (n + 1) height lhs l = .ok (lhs, l) := by
  induction height with
  | zero => rfl
  | succ height ih =>
    have hrow : upcoming (joinsAt (6 - height)) l = none := h _ (by omega)
    have hrest : Settled (7 - height) l := fun t ht => h t (by omega)
    rw [tails, bind_of_ok (ih (by omega) hrest), rowTail_stop hheld hrow]

/-- A row leaves no operator of its own, and none of the rows below it if those leave none. -/
theorem rowTail_settled {below : Parse (Option Expr)} {t : Nat}
    (hbelow : ∀ l e l', required below l = .ok (e, l') → l'.held = true ∧ Settled (t + 1) l') :
    ∀ {k : Nat} {lhs e : Expr} {l l' : Lexer}, l.held = true → Settled (t + 1) l →
      rowTail (joinsAt t) below k lhs l = .ok (e, l') → l'.held = true ∧ Settled t l' := by
  intro k
  induction k with
  | zero => intro lhs e l l' _ _ h; simp [rowTail] at h
  | succ k ih =>
    intro lhs e l l' hheld hsettled h
    cases hup : upcoming (joinsAt t) l with
    | none =>
      rw [rowTail_stop hheld hup] at h
      obtain ⟨-, rfl⟩ := Prod.mk.inj (Except.ok.inj h)
      refine ⟨hheld, fun t' ht' => ?_⟩
      rcases Nat.eq_or_lt_of_le ht' with rfl | hlt
      · exact hup
      · exact hsettled t' hlt
    | some op =>
      rw [rowTail_turn hheld hup] at h
      obtain ⟨_, l₁, -, h₁⟩ := bind_eq_ok.mp h
      obtain ⟨rhs, l₂, hrhs, h₂⟩ := bind_eq_ok.mp h₁
      obtain ⟨hheld₂, hsettled₂⟩ := hbelow l₁ rhs l₂ hrhs
      exact ih hheld₂ hsettled₂ h₂

theorem tails_settled (hpast : LooksPast operand) {height : Nat} (hheight : height ≤ 6) :
    ∀ {lhs e : Expr} {l l' : Lexer}, l.held = true →
      tails operand n height lhs l = .ok (e, l') → l'.held = true ∧ Settled (7 - height) l' := by
  induction height with
  | zero =>
    intro lhs e l l' hheld h
    obtain ⟨-, rfl⟩ := Prod.mk.inj (Except.ok.inj h)
    exact ⟨hheld, settled_of_seven l⟩
  | succ height ih =>
    intro lhs e l l' hheld h
    obtain ⟨lhs', l₁, htails, hrow⟩ := bind_eq_ok.mp h
    obtain ⟨hheld₁, hsettled₁⟩ := ih (by omega) hheld htails
    have htight : 7 - height = (6 - height) + 1 := by omega
    have hsame : 7 - (height + 1) = 6 - height := by omega
    rw [htight] at hsettled₁
    rw [hsame]
    refine rowTail_settled ?_ hheld₁ hsettled₁ hrow
    intro m e' m' hreq
    rw [required_rows] at hreq
    obtain ⟨first, m₁, hfirst, hmore⟩ := bind_eq_ok.mp hreq
    rw [← htight]
    exact ih (by omega) (hpast m first m₁ (required_eq_ok hfirst)) hmore

/-- An operator of a row is taken with its right operand by that row, whichever rows are above. -/
theorem tails_turn (ho : Consumes operand) (hpast : LooksPast operand) (below : Nat)
    {height : Nat} (hheight : below < height) (hsix : height ≤ 6) {lhs : Expr} {l : Lexer} {op : BinaryOp}
    {pos : Pos} (hheld : l.held = true) (hl : l.size < n + 1)
    (hup : upcoming (joinsAt (6 - below)) l = some (op, pos)) :
    tails operand (n + 1) height lhs l =
      (next >>= fun _ => required (rows operand (n + 1) below) >>= fun rhs =>
        tails operand (n + 1) height (.binary pos op lhs rhs)) l := by
  have htight : 7 - below = (6 - below) + 1 := by omega
  induction height with
  | zero => omega
  | succ height ih =>
    rcases Nat.lt_succ_iff_lt_or_eq.mp hheight with hlt | rfl
    · rw [tails]
      have hturn := ih hlt (by omega)
      obtain ⟨lexeme, l₁, hnext, -⟩ := next_of_upcoming hheld hup
      rw [bind_of_ok hnext] at hturn ⊢
      cases hrhs : required (rows operand (n + 1) below) l₁ with
      | error e =>
        rw [bind_of_error hrhs] at hturn ⊢
        exact bind_of_error hturn
      | ok p =>
        obtain ⟨rhs, l₂⟩ := p
        rw [bind_of_ok hrhs] at hturn ⊢
        rw [tails]
        cases hrest : tails operand (n + 1) height (.binary pos op lhs rhs) l₂ with
        | error e => rw [bind_of_error hrest, bind_of_error (hturn.trans hrest)]
        | ok q => rw [bind_of_ok hrest, bind_of_ok (hturn.trans hrest)]
    · have habove : Settled (7 - below) l := htight ▸ settled_above hup
      rw [tails, bind_of_ok (tails_stop (by omega) hheld habove), rowTail_turn hheld hup]
      obtain ⟨lexeme, l₁, hnext, h₁⟩ := next_of_upcoming hheld hup
      rw [bind_of_ok hnext, bind_of_ok hnext]
      refine bind_congr rfl fun rhs l₂ hrhs => ?_
      have hrows := consumes_rows (n + 1) ho below
      have h₂ := shrinks_required hrows.shrinks l₁ rhs l₂ hrhs
      rw [required_rows] at hrhs
      obtain ⟨first, m, hfirst, hmore⟩ := bind_eq_ok.mp hrhs
      obtain ⟨hheld₂, hsettled₂⟩ := tails_settled hpast (by omega)
        (hpast l₁ first m (required_eq_ok hfirst)) hmore
      rw [tails, bind_of_ok (tails_stop (by omega) hheld₂ hsettled₂)]
      -- the loop of this row goes on with one unit of fuel less, and has enough of it
      exact rowTail_congr _ (s := l₂.size) (fun _ _ => rfl) hrows.shrinks n (n + 1) _ l₂
        (Nat.le_refl _) (by omega) (by omega)

end Climbing

theorem climb_stop {nested : Parse Expr} {m n t : Nat} {lhs : Expr} {l : Lexer}
    (hheld : l.held = true) (h : Settled t l) : climb nested m (n + 1) t lhs l = .ok (lhs, l) := by
  rw [climb, bind_of_ok (peekOperator_of_held hheld)]
  cases hop : l.operator? with
  | none => rfl
  | some looked =>
    obtain ⟨op, pos⟩ := looked
    cases hjoins : op.joins? with
    | none => simp [hjoins]
    | some joined =>
      obtain ⟨joined, t'⟩ := joined
      by_cases ht : t' < t
      · simp [hjoins, ht]
      · have hup := upcoming_joinsAt.mpr ⟨op, hop, hjoins⟩
        rw [h t' (by omega)] at hup
        simp at hup

theorem climb_turn {nested : Parse Expr} {m n t t' : Nat} {lhs : Expr} {l : Lexer} {op : BinaryOp}
    {pos : Pos} (hheld : l.held = true) (hup : upcoming (joinsAt t') l = some (op, pos))
    (ht : t ≤ t') :
    climb nested m (n + 1) t lhs l =
      (next >>= fun _ => required (operand nested m) >>= fun first =>
        climb nested m n (t' + 1) first >>= fun rhs =>
          climb nested m n t (.binary pos op lhs rhs)) l := by
  obtain ⟨op', hop, hjoins⟩ := upcoming_joinsAt.mp hup
  rw [climb, bind_of_ok (peekOperator_of_held hheld), hop]
  simp only [hjoins, Nat.not_lt.mpr ht, if_false]

/-- Climbing from a tightness on is what the rows of that tightness and of the tighter ones do. -/
theorem climb_eq_tails {nested : Parse Expr} {m s : Nat} (k : Nat) {o : Parse (Option Expr)}
    (hagree : AgreeBelow s (operand nested m) o) (ho : Consumes o) (hpast : LooksPast o) :
    ∀ (n height : Nat) (lhs : Expr) (l : Lexer), height ≤ 6 → l.held = true → l.size ≤ s →
      l.size < n → l.size < k + 1 →
      climb nested m n (7 - height) lhs l = tails o (k + 1) height lhs l := by
  intro n
  induction n with
  | zero => intro height lhs l _ _ _ hn; omega
  | succ n ih =>
    intro height lhs l hsix hheld hs hn hk
    by_cases hsettled : Settled (7 - height) l
    · rw [climb_stop hheld hsettled, tails_stop hsix hheld hsettled]
    · -- an operator follows that one of the rows takes
      simp only [Settled, Classical.not_forall] at hsettled
      obtain ⟨t, ht, hup⟩ := hsettled
      obtain ⟨⟨op, pos⟩, hup⟩ := Option.ne_none_iff_exists'.mp hup
      obtain ⟨op', -, hjoins⟩ := upcoming_joinsAt.mp hup
      have hbounds := joins?_le hjoins
      have hrow : 6 - (6 - t) = t := by omega
      have hnextRow : 7 - (6 - t) = t + 1 := by omega
      rw [climb_turn hheld hup ht,
        tails_turn ho hpast (6 - t) (by omega) hsix hheld hk (by rw [hrow]; exact hup)]
      obtain ⟨lexeme, l₁, hnext, h₁⟩ := next_of_upcoming hheld hup
      rw [bind_of_ok hnext, bind_of_ok hnext]
      have hfirst := required_congr (hagree l₁ (by omega))
      cases hf : required o l₁ with
      | error e =>
        rw [bind_of_error (hfirst.trans hf),
          bind_of_error (by rw [required_rows, bind_of_error hf])]
      | ok p =>
        obtain ⟨first, l₂⟩ := p
        have h₂ := shrinks_required ho.shrinks l₁ first l₂ hf
        have hheld₂ := hpast l₁ first l₂ (required_eq_ok hf)
        rw [bind_of_ok (hfirst.trans hf)]
        have hrhs := ih (6 - t) first l₂ (by omega) hheld₂ (by omega) (by omega) (by omega)
        rw [hnextRow] at hrhs
        have hrows : required (rows o (k + 1) (6 - t)) l₁ = tails o (k + 1) (6 - t) first l₂ := by
          rw [required_rows, bind_of_ok hf]
        cases ht : tails o (k + 1) (6 - t) first l₂ with
        | error e => rw [bind_of_error (hrhs.trans ht), bind_of_error (hrows.trans ht)]
        | ok q =>
          obtain ⟨rhs, l₃⟩ := q
          have h₃ := shrinks_tails (k + 1) ho (6 - t) first l₂ rhs l₃ ht
          have hheld₃ := (tails_settled hpast (by omega) hheld₂ ht).1
          rw [bind_of_ok (hrhs.trans ht), bind_of_ok (hrows.trans ht)]
          exact ih height _ l₃ hsix hheld₃ (by omega) (by omega) (by omega)

/-! ### The two readers of expressions -/

theorem expression_eq_rows (n : Nat) :
    expression (n + 1) =
      rows (signed (level powers n (atomic (required (expression n)) n))) n 6 := by
  rw [expression, disjunctions_eq, conjunctions_eq, equalities_eq, comparisons_eq, sums_eq,
    products_eq]
  rfl

theorem shrinks_expression (n : Nat) : Shrinks (expression n) := by
  induction n with
  | zero => exact .of_throw _
  | succ n ih =>
    rw [expression_eq_rows]
    exact (consumes_rows n (consumes_signed (consumes_level powers
      (consumes_atomic (shrinks_required ih) n) n)) 6).shrinks

theorem shrinks_climb {nested : Parse Expr} (h : Shrinks nested) (m n : Nat) :
    ∀ t lhs, Shrinks (climb nested m n t lhs) := by
  have hoperand : Shrinks (operand nested m) := by
    rw [operand_eq]
    exact (consumes_signed (consumes_level powers (consumes_atomic h m) m)).shrinks
  induction n with
  | zero => exact fun _ _ => .of_throw _
  | succ n ih =>
    intro t lhs
    refine shrinks_peekOperator.of_bind fun looked => ?_
    cases looked with
    | none => exact .of_pure _
    | some looked =>
      dsimp only
      cases looked.1.joins? with
      | none => exact .of_pure _
      | some joined =>
        dsimp only
        split
        · exact .of_pure _
        · exact shrinks_next.of_bind fun _ => (shrinks_required hoperand).of_bind fun first =>
            (ih _ first).of_bind fun rhs => ih t _

theorem shrinks_parseExpression (n : Nat) : Shrinks (Parse.expression n) := by
  induction n with
  | zero => exact .of_throw _
  | succ n ih =>
    have hnested := shrinks_required ih
    have hoperand : Shrinks (operand (required (Parse.expression n)) n) := by
      rw [operand_eq]
      exact (consumes_signed (consumes_level powers (consumes_atomic hnested n) n)).shrinks
    refine hoperand.of_bind fun lhs => ?_
    cases lhs with
    | none => exact .of_pure _
    | some lhs => exact (shrinks_climb hnested n n 1 lhs).of_map some

theorem blames_rows (n : Nat) {s : Nat} {operand : Parse (Option Expr)} (h : Blames s operand)
    (ho : Consumes operand) (hn : s ≤ n + 1) (height : Nat) : Blames s (rows operand n height) := by
  induction height with
  | zero => exact h
  | succ height ih => exact blames_level _ ih (consumes_rows n ho height) hn

theorem blames_expression (n : Nat) : Blames n (expression n) := by
  induction n with
  | zero => intro l e hl; omega
  | succ n ih =>
    have hnested := shrinks_required (shrinks_expression n)
    have hatoms := blames_atomic (blames_required ih (shrinks_expression n)) hnested (Nat.le_refl n)
    have hpowers := blames_level powers hatoms (consumes_atomic hnested n) (Nat.le_refl _)
    have hconsumes := consumes_level powers (consumes_atomic hnested n) n
    rw [expression_eq_rows]
    exact blames_rows n (blames_signed hpowers hconsumes.shrinks) (consumes_signed hconsumes)
      (Nat.le_refl _) 6

theorem parseExpression_eq (n : Nat) :
    ∀ (k : Nat) (l : Lexer), l.size < n → l.size < k →
      Parse.expression n l = expression k l := by
  induction n with
  | zero => intro k l hn; omega
  | succ n ih =>
    intro k l hn hk
    cases k with
    | zero => omega
    | succ k =>
      have hnested : AgreeBelow l.size (required (Parse.expression n)) (required (expression k)) :=
        fun l' hl' => required_congr (ih k l' (by omega) (by omega))
      have hshrinks := shrinks_required (shrinks_parseExpression n)
      have hatoms : AgreeBelow (l.size + 1) (atomic (required (Parse.expression n)) n)
          (atomic (required (expression k)) k) := fun l' hl' =>
        atomic_congr (hnested.mono (by omega)) hshrinks (by omega) (by omega)
      have hoperands := signed_agree (level_agree powers (n := n) (k := k) hatoms
        (consumes_atomic hshrinks n) (by omega) (by omega))
      rw [← operand_eq] at hoperands
      have hlevel := consumes_level powers
        (consumes_atomic (shrinks_required (shrinks_expression k)) k) k
      have hconsumes := consumes_signed hlevel
      have hpast := looksPast_signed (looksPast_level powers k
        (atomic (required (expression k)) k))
      rw [expression_eq_rows, rows_apply]
      refine bind_congr (hoperands l (by omega)) fun lhs l' hlhs => ?_
      cases lhs with
      | none => rfl
      | some lhs =>
        rw [hoperands l (by omega)] at hlhs
        have hl' := hconsumes.takes l lhs l' hlhs
        have hheld := hpast l lhs l' hlhs
        obtain ⟨k', rfl⟩ : ∃ k', k = k' + 1 := ⟨k - 1, by omega⟩
        have hclimb := climb_eq_tails k' hoperands hconsumes hpast n 6 lhs l' (Nat.le_refl 6)
          hheld (by omega) (by omega) (by omega)
        exact congrArg (Except.map (Prod.map some id)) hclimb

/-- Climbing precedences and descending through the rows of the table are the same: on every lexer
the two readers of expressions give the same tree and leave the same tokens to come, or fail with
the same error at the same position. This holds for any fuel above the tokens to come, and such
fuel is never what a failure is about. -/
theorem climbing_eq_descending (l : Lexer) (n k : Nat) :
    Parse.expression (l.size + 1 + n) l = expression (l.size + 1 + k) l ∧
      ∀ e, Parse.expression (l.size + 1 + n) l = .error e → e.code.kind ≠ .execution := by
  have heq : ∀ k, Parse.expression (l.size + 1 + n) l = expression (l.size + 1 + k) l :=
    fun k => parseExpression_eq _ _ l (by omega) (by omega)
  refine ⟨heq k, fun e he => ?_⟩
  exact blames_expression (l.size + 1 + k) l e (by omega) ((heq k).symm.trans he)

end Layers

end LineBasic
