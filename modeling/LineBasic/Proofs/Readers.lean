import LineBasic.Expr.Parser
import LineBasic.Proofs.TokenProgress

/-!
# What readers do with their tokens

How readers compose, which of them never make the lexer larger, and what looking ahead shows. After
a look ahead the next token is held, and from then on looking at it again changes nothing.
-/

namespace LineBasic

set_option autoImplicit false

/-- The operator that follows on the current line, if one was looked at. -/
def Lexer.operator? (l : Lexer) : Option (Operator × Pos) :=
  match l.last with
  | some ⟨.operator op, pos, _, false⟩ => some (op, pos)
  | _ => none

namespace Parse

variable {α β : Type}

theorem bind_of_ok {x : Parse α} {f : α → Parse β} {l l' : Lexer} {a : α}
    (h : x l = .ok (a, l')) : (x >>= f) l = f a l' := by
  simp [bind, StateT.bind, Except.bind, h]

theorem bind_of_error {x : Parse α} {f : α → Parse β} {l : Lexer} {e : Error}
    (h : x l = .error e) : (x >>= f) l = .error e := by
  simp [bind, StateT.bind, Except.bind, h]

theorem bind_eq_ok {x : Parse α} {f : α → Parse β} {l : Lexer} {r : β × Lexer} :
    (x >>= f) l = .ok r ↔ ∃ a l', x l = .ok (a, l') ∧ f a l' = .ok r := by
  cases h : x l with
  | error e => simp [bind_of_error h]
  | ok p =>
    obtain ⟨a, l'⟩ := p
    rw [bind_of_ok h]
    constructor
    · intro hf
      exact ⟨a, l', rfl, hf⟩
    · rintro ⟨b, m, hb, hf⟩
      obtain ⟨rfl, rfl⟩ := Prod.mk.inj (Except.ok.inj hb)
      exact hf

theorem bind_eq_error {x : Parse α} {f : α → Parse β} {l : Lexer} {e : Error} :
    (x >>= f) l = .error e ↔
      x l = .error e ∨ ∃ a l', x l = .ok (a, l') ∧ f a l' = .error e := by
  cases h : x l with
  | error e' => simp [bind_of_error h]
  | ok p =>
    obtain ⟨a, l'⟩ := p
    rw [bind_of_ok h]
    constructor
    · intro hf
      exact .inr ⟨a, l', rfl, hf⟩
    · rintro (he | ⟨b, m, hb, hf⟩)
      · simp at he
      · obtain ⟨rfl, rfl⟩ := Prod.mk.inj (Except.ok.inj hb)
        exact hf

@[simp] theorem pure_apply (a : α) (l : Lexer) : (pure a : Parse α) l = .ok (a, l) := rfl

@[simp] theorem throw_apply (e : Error) (l : Lexer) : (throw e : Parse α) l = .error e := rfl

@[simp] theorem outOfFuel_apply (l : Lexer) :
    (outOfFuel : Parse α) l = .error { code := .internal, detail := "OUT OF FUEL" } := rfl

theorem bind_congr {x y : Parse α} {f g : α → Parse β} {l : Lexer} (hxy : x l = y l)
    (h : ∀ a l', x l = .ok (a, l') → f a l' = g a l') : (x >>= f) l = (y >>= g) l := by
  cases hx : x l with
  | error e => rw [bind_of_error hx, bind_of_error (hxy ▸ hx)]
  | ok p =>
    obtain ⟨a, l'⟩ := p
    rw [bind_of_ok hx, bind_of_ok (hxy ▸ hx)]
    exact h a l' hx

/-- A reader that never makes the lexer larger. -/
def Shrinks (x : Parse α) : Prop :=
  ∀ l a l', x l = .ok (a, l') → l'.size ≤ l.size

namespace Shrinks

theorem of_pure (a : α) : Shrinks (pure a : Parse α) := by
  intro l b l' h
  simp only [pure_apply, Except.ok.injEq, Prod.mk.injEq] at h
  exact Nat.le_of_eq (by rw [h.2])

theorem of_throw (e : Error) : Shrinks (throw e : Parse α) := by
  intro l b l' h
  simp at h

theorem of_bind {x : Parse α} {f : α → Parse β} (hx : Shrinks x) (hf : ∀ a, Shrinks (f a)) :
    Shrinks (x >>= f) := by
  intro l b l' h
  obtain ⟨a, m, ha, hb⟩ := bind_eq_ok.mp h
  exact Nat.le_trans (hf a m b l' hb) (hx l a m ha)

theorem of_map {x : Parse α} (f : α → β) (hx : Shrinks x) : Shrinks (f <$> x) := by
  rw [map_eq_pure_bind]
  exact hx.of_bind fun a => of_pure _

theorem of_get : Shrinks (get : Parse Lexer) := by
  intro l a l' h
  obtain ⟨-, rfl⟩ := Prod.mk.inj (Except.ok.inj h)
  exact Nat.le_refl _

end Shrinks

/-- Two readers that do the same on lexers below a size. -/
def AgreeBelow (size : Nat) (x y : Parse α) : Prop :=
  ∀ l, l.size < size → x l = y l

theorem AgreeBelow.mono {s t : Nat} {x y : Parse α} (h : AgreeBelow t x y) (hst : s ≤ t) :
    AgreeBelow s x y :=
  fun l hl => h l (Nat.lt_of_lt_of_le hl hst)

/-! ### Looking ahead -/

theorem peek_ok {l l' : Lexer} {lexeme : Option Lexeme} (h : peek l = .ok (lexeme, l')) :
    l'.held = true ∧ l'.last = lexeme ∧ l'.size ≤ l.size := by
  unfold peek ofLexer at h
  split at h
  · rename_i a m hfill
    obtain ⟨rfl, rfl⟩ := Prod.mk.inj (Except.ok.inj h)
    exact Lexer.fill_size_le hfill
  · simp at h

theorem peek_of_held {l : Lexer} (h : l.held = true) : peek l = .ok (l.last, l) := by
  simp [peek, ofLexer, Lexer.peek, Lexer.fill, h]

theorem next_ok {l l' : Lexer} {lexeme : Option Lexeme} (h : next l = .ok (lexeme, l')) :
    l'.held = false ∧ l'.size + (if lexeme.isSome then 1 else 0) ≤ l.size := by
  unfold next ofLexer at h
  split at h
  · rename_i a m hnext
    obtain ⟨rfl, rfl⟩ := Prod.mk.inj (Except.ok.inj h)
    exact Lexer.next_size hnext
  · simp at h

theorem next_of_held {l : Lexer} (h : l.held = true) :
    next l = .ok (l.last, { l with held := false }) := by
  simp [next, ofLexer, Lexer.next, Lexer.fill, h]

theorem shrinks_peek : Shrinks peek :=
  fun _ _ _ h => (peek_ok h).2.2

theorem shrinks_next : Shrinks next :=
  fun _ _ _ h => Nat.le_trans (Nat.le_add_right _ _) (next_ok h).2

theorem peekOnLine_of_held {l : Lexer} (h : l.held = true) :
    peekOnLine l = .ok (l.last.filter (!·.lead), l) := by
  rw [peekOnLine, bind_of_ok (peek_of_held h)]
  cases l.last with
  | none => rfl
  | some lexeme => cases hlead : lexeme.lead <;> simp [hlead, Option.filter]

theorem peekOnLine_eq (l : Lexer) : peekOnLine l = (peek >>= fun _ => peekOnLine) l := by
  cases h : peek l with
  | error e => rw [bind_of_error h, peekOnLine, bind_of_error h]
  | ok p =>
    obtain ⟨lexeme, l'⟩ := p
    obtain ⟨hheld, rfl, -⟩ := peek_ok h
    rw [bind_of_ok h, peekOnLine_of_held hheld, peekOnLine, bind_of_ok h]
    cases l'.last with
    | none => rfl
    | some lexeme => cases hlead : lexeme.lead <;> simp [hlead, Option.filter]

theorem peekOnLine_ok {l l' : Lexer} {lexeme : Option Lexeme}
    (h : peekOnLine l = .ok (lexeme, l')) :
    l'.held = true ∧ lexeme = l'.last.filter (!·.lead) ∧ l'.size ≤ l.size := by
  rw [peekOnLine_eq] at h
  obtain ⟨looked, m, hpeek, hline⟩ := bind_eq_ok.mp h
  obtain ⟨hheld, -, hle⟩ := peek_ok hpeek
  rw [peekOnLine_of_held hheld] at hline
  obtain ⟨rfl, rfl⟩ := Prod.mk.inj (Except.ok.inj hline)
  exact ⟨hheld, rfl, hle⟩

theorem peekOperator_of_held {l : Lexer} (h : l.held = true) :
    peekOperator l = .ok (l.operator?, l) := by
  rw [peekOperator, bind_of_ok (peekOnLine_of_held h), Lexer.operator?]
  cases l.last with
  | none => rfl
  | some lexeme =>
    obtain ⟨token, pos, past, lead⟩ := lexeme
    cases lead <;> cases token <;> rfl

theorem peekOperator_ok {l l' : Lexer} {op : Option (Operator × Pos)}
    (h : peekOperator l = .ok (op, l')) :
    l'.held = true ∧ op = l'.operator? ∧ l'.size ≤ l.size := by
  obtain ⟨lexeme, m, hline, hop⟩ := bind_eq_ok.mp h
  obtain ⟨hheld, -, hle⟩ := peekOnLine_ok hline
  have hagain : peekOperator l = peekOperator m := by
    unfold peekOperator
    rw [bind_of_ok hline, bind_of_ok (peekOnLine_of_held hheld), (peekOnLine_ok hline).2.1]
  rw [hagain, peekOperator_of_held hheld] at h
  obtain ⟨rfl, rfl⟩ := Prod.mk.inj (Except.ok.inj h)
  exact ⟨hheld, rfl, hle⟩

theorem peekToken_ok {l l' : Lexer} {token : Option Token} (h : peekToken l = .ok (token, l')) :
    l'.held = true ∧ l'.size ≤ l.size := by
  obtain ⟨lexeme, m, hline, htoken⟩ := bind_eq_ok.mp h
  obtain ⟨-, rfl⟩ := Prod.mk.inj (Except.ok.inj htoken)
  exact ⟨(peekOnLine_ok hline).1, (peekOnLine_ok hline).2.2⟩

theorem next_of_operator {l : Lexer} {op : Operator × Pos} (hheld : l.held = true)
    (hop : l.operator? = some op) :
    ∃ lexeme l', next l = .ok (lexeme, l') ∧ l'.size < l.size := by
  have hsome : l.last.isSome := by
    unfold Lexer.operator? at hop
    split at hop
    · rename_i hlast
      simp [hlast]
    · simp at hop
  refine ⟨l.last, { l with held := false }, next_of_held hheld, ?_⟩
  simp [Lexer.size, hheld, hsome]

theorem nextOnLine_ok {detail : String} {l l' : Lexer} {lexeme : Lexeme}
    (h : nextOnLine detail l = .ok (lexeme, l')) : l'.size < l.size := by
  obtain ⟨taken, m, hnext, hline⟩ := bind_eq_ok.mp h
  have hsize := (next_ok hnext).2
  cases taken with
  | none =>
    obtain ⟨a, m', -, hthrow⟩ := bind_eq_ok.mp hline
    simp at hthrow
  | some taken =>
    cases hlead : taken.lead with
    | true => simp [hlead] at hline
    | false =>
      simp only [hlead, Bool.false_eq_true, if_false, pure_apply, Except.ok.injEq,
        Prod.mk.injEq] at hline
      obtain ⟨-, rfl⟩ := hline
      simp only [Option.isSome_some, if_true] at hsize
      omega

theorem shrinks_peekOnLine : Shrinks peekOnLine :=
  fun _ _ _ h => (peekOnLine_ok h).2.2

theorem shrinks_peekToken : Shrinks peekToken :=
  fun _ _ _ h => (peekToken_ok h).2

theorem shrinks_peekOperator : Shrinks peekOperator :=
  fun _ _ _ h => (peekOperator_ok h).2.2

theorem shrinks_nextOnLine (detail : String) : Shrinks (nextOnLine detail) :=
  fun _ _ _ h => Nat.le_of_lt (nextOnLine_ok h)

theorem shrinks_required {reader : Parse (Option Expr)} (h : Shrinks reader) :
    Shrinks (required reader) := by
  refine h.of_bind fun e => ?_
  cases e with
  | some e => exact .of_pure e
  | none =>
    intro l a l' hthrow
    obtain ⟨pos, m, -, hm⟩ := bind_eq_ok.mp hthrow
    simp at hm

theorem shrinks_expect (token : Token) (detail : String) : Shrinks (expect token detail) := by
  refine (shrinks_nextOnLine detail).of_bind fun lexeme => ?_
  split
  · exact .of_pure ()
  · exact .of_throw _

/-! ### Readers of optional expressions -/

/-- A reader that never makes the lexer larger, and smaller when it finds an expression. -/
structure Consumes (x : Parse (Option Expr)) : Prop where
  shrinks : Shrinks x
  takes : ∀ l e l', x l = .ok (some e, l') → l'.size < l.size

theorem shrinks_selectorTail {nested : Parse Expr} (h : Shrinks nested) (n : Nat) :
    Shrinks (selectorTail nested n) := by
  induction n with
  | zero => exact .of_throw _
  | succ n ih =>
    refine h.of_bind fun e => (shrinks_nextOnLine _).of_bind fun lexeme => ?_
    split
    · exact ih.of_bind fun rest => .of_pure _
    · exact ih.of_bind fun rest => .of_pure _
    · exact .of_pure _
    · exact .of_throw _

theorem shrinks_selectorWith {nested : Parse Expr} (h : Shrinks nested) (n : Nat) :
    Shrinks (selectorWith nested n) := by
  refine shrinks_peekToken.of_bind fun token => ?_
  split
  · exact shrinks_next.of_bind fun _ => .of_pure _
  · exact shrinks_selectorTail h n

/-- A token that is given back is worth one character at most. -/
theorem pushback_ok {l l' : Lexer} {u : Unit} (h : pushback l = .ok (u, l')) :
    l'.size ≤ l.size + 1 := by
  unfold pushback Lexer.pushback at h
  split at h
  · simp [Except.map] at h
  · simp only [Except.map, Except.ok.injEq, Prod.mk.injEq, true_and] at h
    subst h
    simp only [Lexer.size]
    split <;> omega

/-- What follows the first token of an atomic expression, which stands on the current line. -/
def atomicFrom (nested : Parse Expr) (n : Nat) (token : Token) (pos : Pos) :
    Parse (Option Expr) :=
  match token with
  | .leftParen => do
    let e ← nested
    expect .rightParen "EXPECTED RIGHT PARENTHESIS"
    pure (some e)
  | .number x => pure (some (.number pos x))
  | .text s => pure (some (.text pos s))
  | .ident name => do
    match ← peekToken with
    | some .leftParen => do
      let _ ← next
      let selector ← selectorWith nested n
      pure (some (.select pos name selector.first selector.more))
    | _ => pure (some (.var pos name))
  | .word w =>
    match w.truth? with
    | some b => pure (some (.bool pos b))
    | none => do
      pushback
      pure none
  | _ => do
    pushback
    pure none

theorem atomic_eq (nested : Parse Expr) (n : Nat) :
    atomic nested n = next >>= fun
      | none => pure none
      | some lexeme =>
        if lexeme.lead then pushback >>= fun _ => pure none
        else atomicFrom nested n lexeme.token lexeme.pos := by
  unfold atomic
  congr 1
  funext lexeme
  cases lexeme <;> rfl

theorem pushback_none_ok {l l' : Lexer} {e : Option Expr}
    (h : (pushback >>= fun _ => pure none : Parse (Option Expr)) l = .ok (e, l')) :
    e = none ∧ l'.size ≤ l.size + 1 := by
  obtain ⟨u, m, hback, hnone⟩ := bind_eq_ok.mp h
  obtain ⟨rfl, rfl⟩ := Prod.mk.inj (Except.ok.inj hnone)
  exact ⟨rfl, pushback_ok hback⟩

/-- Without an expression the one token that was taken has been given back. -/
theorem atomicFrom_ok {nested : Parse Expr} (hnested : Shrinks nested) {n : Nat} {token : Token}
    {pos : Pos} {l l' : Lexer} {e : Option Expr}
    (h : atomicFrom nested n token pos l = .ok (e, l')) :
    l'.size ≤ l.size + (if e.isSome then 0 else 1) := by
  have hgiven : ∀ {m}, (pushback >>= fun _ => pure none : Parse (Option Expr)) l = .ok (e, m) →
      m.size ≤ l.size + (if e.isSome then 0 else 1) := by
    intro m hm
    obtain ⟨rfl, hle⟩ := pushback_none_ok hm
    simpa using hle
  have hplain : ∀ {x : Expr}, (pure (some x) : Parse (Option Expr)) l = .ok (e, l') →
      l'.size ≤ l.size + (if e.isSome then 0 else 1) := by
    intro x hx
    obtain ⟨rfl, rfl⟩ := Prod.mk.inj (Except.ok.inj hx)
    simp
  unfold atomicFrom at h
  split at h
  · have hle := (hnested.of_bind fun e => (shrinks_expect _ _).of_bind
      fun _ => Shrinks.of_pure (some e)) l e l' h
    omega
  · exact hplain h
  · exact hplain h
  · rename_i name
    obtain ⟨next?, m, hpeek, hrest⟩ := bind_eq_ok.mp h
    have hm := (peekToken_ok hpeek).2
    split at hrest
    · have hle := (shrinks_next.of_bind fun _ => (shrinks_selectorWith hnested n).of_bind
        fun selector => Shrinks.of_pure (some (Expr.select pos name selector.first selector.more)))
        m e l' hrest
      omega
    · obtain ⟨rfl, rfl⟩ := Prod.mk.inj (Except.ok.inj hrest)
      omega
  · rename_i word
    cases htruth : word.truth? with
    | some b =>
      simp only [htruth] at h
      exact hplain h
    | none =>
      simp only [htruth] at h
      exact hgiven h
  · exact hgiven h

theorem consumes_atomic {nested : Parse Expr} (h : Shrinks nested) (n : Nat) :
    Consumes (atomic nested n) := by
  have hread : ∀ l e l', atomic nested n l = .ok (e, l') →
      l'.size + (if e.isSome then 1 else 0) ≤ l.size := by
    intro l e l' hatom
    rw [atomic_eq] at hatom
    obtain ⟨lexeme, m, hnext, hrest⟩ := bind_eq_ok.mp hatom
    have hm := (next_ok hnext).2
    cases lexeme with
    | none =>
      obtain ⟨rfl, rfl⟩ := Prod.mk.inj (Except.ok.inj hrest)
      simpa using hm
    | some lexeme =>
      simp only [Option.isSome_some, if_true] at hm
      dsimp only at hrest
      split at hrest
      · obtain ⟨rfl, hle⟩ := pushback_none_ok hrest
        simp only [Option.isSome_none, Bool.false_eq_true, if_false]
        omega
      · have hle := atomicFrom_ok h hrest
        cases e with
        | none => simp only [Option.isSome_none, Bool.false_eq_true, if_false] at hle ⊢; omega
        | some e => simp only [Option.isSome_some, if_true] at hle ⊢; omega
  constructor
  · intro l e l' hatom
    exact Nat.le_trans (Nat.le_add_right _ _) (hread l e l' hatom)
  · intro l e l' hatom
    have hle := hread l (some e) l' hatom
    simp only [Option.isSome_some, if_true] at hle
    omega

/-! ### Complaints

With fuel for every token to come, readers fail only over the source: over a token that cannot be
read or one that does not belong. -/

/-- A failure on a lexer below a size is a lexical or a grammatical one. -/
def Blames (size : Nat) (x : Parse α) : Prop :=
  ∀ l e, l.size < size → x l = .error e → e.code.kind ≠ .execution

namespace Blames

variable {s : Nat}

theorem of_pure (a : α) : Blames s (pure a : Parse α) := by
  intro l e _ h
  simp at h

theorem of_malformed (pos : Pos) (detail : String) :
    Blames s (throw (.malformed pos detail) : Parse α) := by
  intro l e _ h
  obtain rfl := Except.error.inj h
  simp [Error.malformed, ErrorCode.kind]

theorem mono {t : Nat} {x : Parse α} (hx : Blames t x) (hst : s ≤ t) : Blames s x :=
  fun l e hl => hx l e (Nat.lt_of_lt_of_le hl hst)

theorem of_bind {x : Parse α} {f : α → Parse β} (hx : Blames s x) (hle : Shrinks x)
    (hf : ∀ a, Blames s (f a)) : Blames s (x >>= f) := by
  intro l e hl h
  rcases bind_eq_error.mp h with he | ⟨a, l', ha, he⟩
  · exact hx l e hl he
  · have hl' := hle l a l' ha
    exact hf a l' e (by omega) he

end Blames

theorem fill_error {l l' : Lexer} {e : Error} (h : l.fill = (.error e, l')) :
    e.code = .lexical := by
  unfold Lexer.fill at h
  split at h
  · simp at h
  · split at h
    · simp at h
    · rename_i e' cursor hscan
      obtain ⟨he, -⟩ := Prod.mk.inj h
      obtain rfl := Except.error.inj he
      simp only [Cursor.scan] at hscan
      split at hscan
      · simp at hscan
      · split at hscan
        · simp at hscan
        · obtain ⟨he, -⟩ := Prod.mk.inj hscan
          obtain rfl := Except.error.inj he
          rfl

theorem blames_peek (s : Nat) : Blames s peek := by
  intro l e _ h
  unfold peek ofLexer at h
  split at h
  · simp at h
  · rename_i e' l' hpeek
    obtain rfl := Except.error.inj h
    simp [fill_error hpeek, ErrorCode.kind]

theorem blames_next (s : Nat) : Blames s next := by
  intro l e _ h
  unfold next ofLexer at h
  split at h
  · simp at h
  · rename_i e' l' hnext
    obtain rfl := Except.error.inj h
    unfold Lexer.next at hnext
    split at hnext
    · simp at hnext
    · rename_i e'' m hfill
      obtain ⟨he, -⟩ := Prod.mk.inj hnext
      obtain rfl := Except.error.inj he
      simp [fill_error hfill, ErrorCode.kind]

theorem blames_peekOnLine (s : Nat) : Blames s peekOnLine := by
  refine (blames_peek s).of_bind shrinks_peek fun lexeme => ?_
  split
  · split
    · exact .of_pure _
    · exact .of_pure _
  · exact .of_pure _

theorem blames_peekToken (s : Nat) : Blames s peekToken :=
  (blames_peekOnLine s).of_bind shrinks_peekOnLine fun _ => .of_pure _

theorem blames_peekOperator (s : Nat) : Blames s peekOperator := by
  refine (blames_peekOnLine s).of_bind shrinks_peekOnLine fun lexeme => ?_
  split
  · exact .of_pure _
  · exact .of_pure _

theorem blames_missingPos (s : Nat) : Blames s missingPos := by
  refine (blames_peekOnLine s).of_bind shrinks_peekOnLine fun lexeme => ?_
  split
  · exact .of_pure _
  · intro l e _ h
    change Except.ok _ = Except.error e at h
    cases h

theorem shrinks_missingPos : Shrinks missingPos := by
  refine shrinks_peekOnLine.of_bind fun lexeme => ?_
  split
  · exact .of_pure _
  · exact Shrinks.of_get.of_bind fun _ => .of_pure _

theorem blames_nextOnLine (s : Nat) (detail : String) : Blames s (nextOnLine detail) := by
  refine (blames_next s).of_bind shrinks_next fun lexeme => ?_
  split
  · split
    · exact .of_malformed _ _
    · exact .of_pure _
  · intro l e hl h
    rcases bind_eq_error.mp h with he | ⟨l₁, l₂, hget, he⟩
    · change Except.ok _ = Except.error e at he
      cases he
    · have hle := Shrinks.of_get l l₁ l₂ hget
      exact Blames.of_malformed (s := s) _ _ l₂ e (by omega) he

theorem blames_expect (s : Nat) (token : Token) (detail : String) :
    Blames s (expect token detail) := by
  refine (blames_nextOnLine s detail).of_bind (shrinks_nextOnLine detail) fun lexeme => ?_
  split
  · exact .of_pure _
  · exact .of_malformed _ _

theorem blames_required {s : Nat} {x : Parse (Option Expr)} (h : Blames s x) (hx : Shrinks x) :
    Blames s (required x) := by
  refine h.of_bind hx fun e => ?_
  split
  · exact .of_pure _
  · exact (blames_missingPos s).of_bind shrinks_missingPos fun pos => .of_malformed _ _

theorem blames_selectorTail {s : Nat} {x : Parse Expr} (h : Blames s x) (hx : Shrinks x) :
    ∀ n, Blames (min s n) (selectorTail x n) := by
  intro n
  induction n with
  | zero => intro l e hl; omega
  | succ n ih =>
    intro l e hl he
    rcases bind_eq_error.mp he with he | ⟨first, l₁, hfirst, he⟩
    · exact h l e (by omega) he
    have h₁ := hx l first l₁ hfirst
    rcases bind_eq_error.mp he with he | ⟨lexeme, l₂, hlexeme, he⟩
    · exact blames_nextOnLine s _ l₁ e (by omega) he
    have h₂ := nextOnLine_ok hlexeme
    have hrest : ∀ {f : Levels → Levels},
        (selectorTail x n >>= fun rest => pure (f rest)) l₂ = .error e →
          e.code.kind ≠ .execution := by
      intro f hf
      exact (ih.of_bind (shrinks_selectorTail hx n) fun _ => .of_pure _) l₂ e (by omega) hf
    cases htoken : lexeme.token with
    | comma => rw [htoken] at he; exact hrest he
    | colon => rw [htoken] at he; exact hrest he
    | rightParen => rw [htoken] at he; simp at he
    | _ =>
      rw [htoken] at he
      exact Blames.of_malformed (s := s) _ _ l₂ e (by omega) he

theorem blames_selectorWith {s n : Nat} {x : Parse Expr} (h : Blames s x) (hx : Shrinks x)
    (hn : s ≤ n) : Blames s (selectorWith x n) := by
  refine (blames_peekToken s).of_bind shrinks_peekToken fun token => ?_
  split
  · exact (blames_next s).of_bind shrinks_next fun _ => .of_pure _
  · exact (blames_selectorTail h hx n).mono (by omega)

theorem pushback_of_free {l : Lexer} (h : l.held = false) :
    pushback l = .ok ((), { l with held := true }) := by
  simp [pushback, Lexer.pushback, h, Except.map]

theorem blames_atomicFrom {s n : Nat} {x : Parse Expr} (h : Blames s x) (hx : Shrinks x)
    {token : Token} {pos : Pos} {l : Lexer} {e : Error} (hheld : l.held = false)
    (hs : l.size < s) (hn : s ≤ n) (he : atomicFrom x n token pos l = .error e) :
    e.code.kind ≠ .execution := by
  have hback : ∀ {m}, (pushback >>= fun _ => pure none : Parse (Option Expr)) l ≠ .error m := by
    intro m hm
    rw [bind_of_ok (pushback_of_free hheld)] at hm
    cases hm
  unfold atomicFrom at he
  split at he
  · exact (h.of_bind hx fun e => (blames_expect s _ _).of_bind (shrinks_expect _ _)
      fun _ => .of_pure _) l e hs he
  · simp at he
  · simp at he
  · rcases bind_eq_error.mp he with he | ⟨token, l₁, hpeek, he⟩
    · exact blames_peekToken s l e hs he
    have h₁ := (peekToken_ok hpeek).2
    split at he
    · exact ((blames_next s).of_bind shrinks_next fun _ => (blames_selectorWith h hx hn).of_bind
        (shrinks_selectorWith hx n) fun _ => .of_pure _) l₁ e (by omega) he
    · simp at he
  · rename_i word
    cases htruth : word.truth? with
    | some b => simp [htruth] at he
    | none =>
      simp only [htruth] at he
      exact absurd he hback
  · exact absurd he hback

theorem blames_atomic {s n : Nat} {x : Parse Expr} (h : Blames s x) (hx : Shrinks x)
    (hn : s ≤ n) : Blames (s + 1) (atomic x n) := by
  intro l e hl he
  rw [atomic_eq] at he
  rcases bind_eq_error.mp he with he | ⟨lexeme, l₁, hnext, he⟩
  · exact blames_next (s + 1) l e hl he
  obtain ⟨hheld, h₁⟩ := next_ok hnext
  cases lexeme with
  | none => simp at he
  | some lexeme =>
    simp only [Option.isSome_some, if_true] at h₁
    dsimp only at he
    split at he
    · rw [bind_of_ok (pushback_of_free hheld)] at he
      cases he
    · exact blames_atomicFrom h hx hheld (by omega) hn he

/-! ### Fuel that suffices does not matter

Readers in two versions, which differ in how deep they may go into parentheses and in the fuel of
their loops, agree while both have fuel for every token to come. -/

theorem required_congr {x y : Parse (Option Expr)} {l : Lexer} (h : x l = y l) :
    required x l = required y l :=
  bind_congr h fun _ _ _ => rfl

theorem selectorTail_congr {s : Nat} {x y : Parse Expr} (hxy : AgreeBelow s x y)
    (hx : Shrinks x) :
    ∀ (n k : Nat) (l : Lexer), l.size < s → l.size < n → l.size < k →
      selectorTail x n l = selectorTail y k l := by
  intro n
  induction n with
  | zero => intro k l _ hn; omega
  | succ n ih =>
    intro k l hs hn hk
    cases k with
    | zero => omega
    | succ k =>
      refine bind_congr (hxy l hs) fun e l₁ he => bind_congr rfl fun lexeme l₂ hlexeme => ?_
      have h₁ := hx l e l₁ he
      have h₂ := nextOnLine_ok hlexeme
      have hrest := ih k l₂ (by omega) (by omega) (by omega)
      cases lexeme.token with
      | comma => exact bind_congr hrest fun _ _ _ => rfl
      | colon => exact bind_congr hrest fun _ _ _ => rfl
      | _ => rfl

theorem selectorWith_congr {s n k : Nat} {x y : Parse Expr} (hxy : AgreeBelow s x y)
    (hx : Shrinks x) {l : Lexer} (hs : l.size < s) (hn : l.size < n) (hk : l.size < k) :
    selectorWith x n l = selectorWith y k l := by
  refine bind_congr rfl fun token l' hpeek => ?_
  have hl' := (peekToken_ok hpeek).2
  split
  · rfl
  · exact selectorTail_congr hxy hx n k l' (by omega) (by omega) (by omega)

/-- The first token of an atomic expression is taken before anything nested is read. -/
theorem atomic_congr {n k : Nat} {x y : Parse Expr} {l : Lexer} (hxy : AgreeBelow l.size x y)
    (hx : Shrinks x) (hn : l.size ≤ n) (hk : l.size ≤ k) :
    atomic x n l = atomic y k l := by
  rw [atomic_eq, atomic_eq]
  refine bind_congr rfl fun lexeme l₁ hnext => ?_
  have h₁ := (next_ok hnext).2
  cases lexeme with
  | none => rfl
  | some lexeme =>
    simp only [Option.isSome_some, if_true] at h₁
    dsimp only
    split
    · rfl
    · cases lexeme.token with
      | leftParen => exact bind_congr (hxy l₁ (by omega)) fun _ _ _ => rfl
      | ident name =>
        refine bind_congr rfl fun token l₂ hpeek => ?_
        have h₂ := (peekToken_ok hpeek).2
        split
        · refine bind_congr rfl fun _ l₃ hparen => ?_
          have h₃ := shrinks_next l₂ _ l₃ hparen
          exact bind_congr (selectorWith_congr hxy hx (by omega) (by omega) (by omega))
            fun _ _ _ => rfl
        · rfl
      | _ => rfl

end Parse

end LineBasic
