import LineBasic.Proofs.Complaints
import LineBasic.Proofs.Relocation

/-!
# Sources with the same tokens at other positions

Two sources may have the same tokens at positions that correspond, with other gaps between them. A
reader then gives the same for both, at the corresponding positions, or it fails on both with the same
code. The first source may also have a remark where the second one ends its line, and where the first
source ends the second one may go on in a new line: for a reader of expressions both are as good as the
end of the line.
-/

namespace LineBasic

set_option autoImplicit false

open Parse

def Lexeme.mapPos (f : Pos → Pos) (lexeme : Lexeme) : Lexeme :=
  { lexeme with pos := f lexeme.pos }

/-! ### Corresponding tokens -/

namespace Coupling

section

variable (move : Pos → Pos) (Known : Lexeme → Cursor → Prop) (Linked Ended : Cursor → Cursor → Prop)
  (stop : Option Lexeme)

/-- What a token and the cursors behind it have to be like. The line of a remark is dropped before
anything else is read. -/
structure Behind (lexeme : Lexeme) (c c' : Cursor) : Prop where
  known : Known lexeme c
  /-- A token of a later line does not touch this one. -/
  apart : ∀ after c₁, c'.scan = (.ok (some after), c₁) → after.lead = true →
    (lexeme.mapPos move).touches after = false
  remark : lexeme.token = .word .rem → Linked c.skipLine c'.skipLine
  other : lexeme.token ≠ .word .rem → Linked c c'

/-- Both cursors come to a token, or the first one comes to its end. -/
inductive Agreed :
    Except Error (Option Lexeme) × Cursor → Except Error (Option Lexeme) × Cursor → Prop where
  | token {lexeme : Lexeme} {c c' : Cursor} (behind : Behind move Known Linked lexeme c c') :
      Agreed (.ok (some lexeme), c) (.ok (some (lexeme.mapPos move)), c')
  | stop {c c' : Cursor} (ended : Ended c c') : Agreed (.ok none, c) (.ok stop, c')

/-- What may follow a line that only the first source ends with a remark, or the first source. -/
def Fresh (found : Option Lexeme) : Prop :=
  ∀ lexeme ∈ found, lexeme.lead = true ∧ lexeme.token ≠ .word .else

theorem fresh_none : Fresh none :=
  fun lexeme h => absurd h (Option.not_mem_none lexeme)

theorem closed_empty : ({} : Draft).loops = [] := rfl

theorem touches_id : ∀ {a b : Lexeme} {_ _ : Cursor}, True → True →
    (a.mapPos id).touches (b.mapPos id) = a.touches b :=
  fun _ _ => rfl

/-- What two cursors yield that stand side by side. -/
inductive Scanned :
    Except Error (Option Lexeme) × Cursor → Except Error (Option Lexeme) × Cursor → Prop where
  | agreed {r r' : Except Error (Option Lexeme) × Cursor} (h : Agreed move Known Linked Ended stop r r') :
      Scanned r r'
  | error {e e' : Error} {c c' : Cursor} (h : e.code = e'.code) : Scanned (.error e, c) (.error e', c')
  | remark {lexeme : Lexeme} {c c' : Cursor} {found : Option Lexeme}
      (hrem : lexeme.token = .word .rem)
      (h : Agreed move Known Linked Ended stop c.skipLine.scan (.ok found, c')) (fresh : Fresh found) :
      Scanned (.ok (some lexeme), c) (.ok found, c')

end

end Coupling

/-- Two sources with corresponding tokens. -/
structure Coupling where
  /-- Where the tokens of the first source stand in the second one. -/
  move : Pos → Pos
  /-- What is known of the tokens of the first source and the cursors behind them. -/
  Known : Lexeme → Cursor → Prop
  /-- The cursors from which corresponding tokens follow. -/
  Linked : Cursor → Cursor → Prop
  /-- The cursors where the first source has ended. -/
  Ended : Cursor → Cursor → Prop
  /-- What the second source shows where the first one has ended. -/
  stop : Option Lexeme := none
  /-- The code that has been read when the second source is read. -/
  base : Draft := {}
  fresh : Coupling.Fresh stop := by exact Coupling.fresh_none
  closed : base.loops = [] := by exact Coupling.closed_empty
  scanned : ∀ {c c'}, Linked c c' → Coupling.Scanned move Known Linked Ended stop c.scan c'.scan
  touches : ∀ {a b c d}, Known a c → Known b d →
    (a.mapPos move).touches (b.mapPos move) = a.touches b
  ended : ∀ {c c'}, Ended c c' → c.scan = (.ok none, c) ∧ (stop = none → c'.scan = (.ok none, c'))

namespace Coupling

variable (K : Coupling)

/-- What two lexers show that stand side by side. -/
inductive Filled :
    Except Error (Option Lexeme) × Lexer → Except Error (Option Lexeme) × Lexer → Prop where
  | token {lexeme : Lexeme} {c c' : Cursor} (behind : Behind K.move K.Known K.Linked lexeme c c') :
      Filled (.ok (some lexeme), ⟨c, some lexeme, true⟩)
        (.ok (some (lexeme.mapPos K.move)), ⟨c', some (lexeme.mapPos K.move), true⟩)
  | stop {c c' : Cursor} (ended : K.Ended c c') :
      Filled (.ok none, ⟨c, none, true⟩) (.ok K.stop, ⟨c', K.stop, true⟩)
  | error {e e' : Error} {l l' : Lexer} (h : e.code = e'.code) : Filled (.error e, l) (.error e', l')
  | remark {lexeme : Lexeme} {c c' : Cursor} {found : Option Lexeme}
      (hrem : lexeme.token = .word .rem)
      (h : Agreed K.move K.Known K.Linked K.Ended K.stop c.skipLine.scan (.ok found, c'))
      (fresh : Fresh found) :
      Filled (.ok (some lexeme), ⟨c, some lexeme, true⟩) (.ok found, ⟨c', found, true⟩)

/-- Lexers side by side. -/
def Beside (l l' : Lexer) : Prop :=
  K.Filled l.fill l'.fill

/-- Lexers that hold a token. -/
structure Holds (lexeme : Lexeme) (l l' : Lexer) : Prop where
  behind : Behind K.move K.Known K.Linked lexeme l.cursor l'.cursor
  eq : l = ⟨l.cursor, some lexeme, true⟩
  eq' : l' = ⟨l'.cursor, some (lexeme.mapPos K.move), true⟩

/-- Lexers that have handed out a token just now. -/
structure Took (lexeme : Lexeme) (l l' : Lexer) : Prop where
  behind : Behind K.move K.Known K.Linked lexeme l.cursor l'.cursor
  eq : l = ⟨l.cursor, some lexeme, false⟩
  eq' : l' = ⟨l'.cursor, some (lexeme.mapPos K.move), false⟩

variable {K} {lexeme : Lexeme} {l l' : Lexer}

theorem Holds.beside (h : K.Holds lexeme l l') : K.Beside l l' := by
  rw [Beside, h.eq, h.eq']
  exact .token h.behind

theorem beside_of_scanned {c c' : Cursor} {last last' : Option Lexeme}
    (h : Scanned K.move K.Known K.Linked K.Ended K.stop c.scan c'.scan) :
    K.Beside ⟨c, last, false⟩ ⟨c', last', false⟩ := by
  simp only [Beside, Lexer.fill, Bool.false_eq_true, if_false]
  generalize c.scan = r at h
  generalize c'.scan = r' at h
  cases h with
  | agreed h =>
    cases h with
    | token behind => exact .token behind
    | stop ended => exact .stop ended
  | error h => exact .error h
  | remark hrem h fresh => exact .remark hrem h fresh

theorem beside_of_linked {c c' : Cursor} (h : K.Linked c c') (last last' : Option Lexeme) :
    K.Beside ⟨c, last, false⟩ ⟨c', last', false⟩ :=
  beside_of_scanned (K.scanned h)

theorem Took.beside (h : K.Took lexeme l l') (hrem : lexeme.token ≠ .word .rem) : K.Beside l l' := by
  rw [h.eq, h.eq']
  exact beside_of_linked (h.behind.other hrem) _ _

theorem Took.skipLine (h : K.Took lexeme l l') (hrem : lexeme.token = .word .rem) :
    K.Beside l.skipLine l'.skipLine := by
  rw [h.eq, h.eq']
  exact beside_of_linked (h.behind.remark hrem) _ _

theorem fill_at_end {c : Cursor} (h : c.scan = (.ok none, c)) :
    Lexer.fill ⟨c, none, false⟩ = (.ok none, ⟨c, none, true⟩) := by
  simp [Lexer.fill, h]

/-! ### Readers side by side -/

/-- Two runs that succeed alike or both fail, with the same code. -/
inductive Alike {α : Type} (Q : α → α → Lexer → Lexer → Prop) :
    Except Error (α × Lexer) → Except Error (α × Lexer) → Prop where
  | ok {a a' : α} {l l' : Lexer} (h : Q a a' l l') : Alike Q (.ok (a, l)) (.ok (a', l'))
  | error {e e' : Error} (h : e.code = e'.code) : Alike Q (.error e) (.error e')

/-- Two readers do the same: on lexers related by `P` both fail, or both give results and lexers
that are related by `Q`. -/
def Tracks {α : Type} (P : Lexer → Lexer → Prop) (x x' : Parse α)
    (Q : α → α → Lexer → Lexer → Prop) : Prop :=
  ∀ l l', P l l' → Alike Q (x l) (x' l')

variable (K) in
/-- Two readers of which the second one gives what the first one gives, but for `f`. -/
def Moves {α : Type} (f : α → α) (x x' : Parse α) : Prop :=
  Tracks K.Beside x x' fun a a' l l' => a' = f a ∧ K.Beside l l'

namespace Tracks

variable {α β : Type} {P : Lexer → Lexer → Prop} {Q : α → α → Lexer → Lexer → Prop}
  {R : β → β → Lexer → Lexer → Prop}

theorem of_pure {a a' : α} (h : ∀ l l', P l l' → Q a a' l l') : Tracks P (pure a) (pure a') Q :=
  fun l l' hp => .ok (h l l' hp)

theorem of_throw {e e' : Error} (h : e.code = e'.code) : Tracks P (throw e) (throw e') Q :=
  fun _ _ _ => .error h

theorem of_bind {x x' : Parse α} {f f' : α → Parse β} (hx : Tracks P x x' Q)
    (hf : ∀ a a', Tracks (Q a a') (f a) (f' a') R) : Tracks P (x >>= f) (x' >>= f') R := by
  intro l l' hp
  have halike := hx l l' hp
  generalize hr : x l = r at halike
  generalize hr' : x' l' = r' at halike
  cases halike with
  | error h =>
    rw [bind_of_error hr, bind_of_error hr']
    exact .error h
  | @ok a a' m m' hq =>
    rw [bind_of_ok hr, bind_of_ok hr']
    exact hf a a' m m' hq

end Tracks

namespace Moves

variable {α β : Type} {f : α → α} {g : β → β}

theorem of_pure {a a' : α} (h : a' = f a) : K.Moves f (pure a) (pure a') :=
  Tracks.of_pure fun _ _ hbeside => ⟨h, hbeside⟩

theorem of_bind {x x' : Parse α} {k k' : α → Parse β} (hx : K.Moves f x x')
    (hk : ∀ a, K.Moves g (k a) (k' (f a))) : K.Moves g (x >>= k) (x' >>= k') := by
  refine Tracks.of_bind hx fun a a' => ?_
  rintro l l' ⟨rfl, hbeside⟩
  exact hk a l l' hbeside

theorem of_map {x x' : Parse α} {k k' : α → β} (hx : K.Moves f x x')
    (hk : ∀ a, k' (f a) = g (k a)) : K.Moves g (k <$> x) (k' <$> x') := by
  rw [map_eq_pure_bind, map_eq_pure_bind]
  exact hx.of_bind fun a => of_pure (hk a)

theorem outOfFuel : K.Moves f (outOfFuel : Parse α) outOfFuel :=
  Tracks.of_throw rfl

end Moves

/-! ### Looking ahead and taking tokens -/

variable (K) in
/-- What looking ahead shows. -/
inductive Peeked : Option Lexeme → Option Lexeme → Lexer → Lexer → Prop where
  | token {lexeme : Lexeme} {l l' : Lexer} (h : K.Holds lexeme l l') :
      Peeked (some lexeme) (some (lexeme.mapPos K.move)) l l'
  | stop {l l' : Lexer} (h : K.Beside l l') : Peeked none K.stop l l'
  | remark {lexeme : Lexeme} {found : Option Lexeme} {l l' : Lexer} (hrem : lexeme.token = .word .rem)
      (fresh : Fresh found) (h : K.Beside l l') : Peeked (some lexeme) found l l'

variable (K) in
/-- What looking ahead shows of the current line. -/
inductive Shown : Option Lexeme → Option Lexeme → Lexer → Lexer → Prop where
  | token {lexeme : Lexeme} {l l' : Lexer} (hlead : lexeme.lead = false) (h : K.Holds lexeme l l') :
      Shown (some lexeme) (some (lexeme.mapPos K.move)) l l'
  | none {l l' : Lexer} (h : K.Beside l l') : Shown none none l l'
  | remark {lexeme : Lexeme} {l l' : Lexer} (hrem : lexeme.token = .word .rem) (h : K.Beside l l') :
      Shown (some lexeme) none l l'

variable (K) in
/-- The token that looking ahead shows of the current line. -/
inductive ShownToken : Option Token → Option Token → Lexer → Lexer → Prop where
  | token {lexeme : Lexeme} {l l' : Lexer} (hlead : lexeme.lead = false) (h : K.Holds lexeme l l') :
      ShownToken (some lexeme.token) (some lexeme.token) l l'
  | none {l l' : Lexer} (h : K.Beside l l') : ShownToken none none l l'
  | remark {l l' : Lexer} (h : K.Beside l l') : ShownToken (some (.word .rem)) none l l'

variable (K) in
/-- The operator that looking ahead shows of the current line. -/
inductive ShownOperator :
    Option (Operator × Pos) → Option (Operator × Pos) → Lexer → Lexer → Prop where
  | operator {op : Operator} {lexeme : Lexeme} {l l' : Lexer} (hop : lexeme.token = .operator op)
      (h : K.Holds lexeme l l') :
      ShownOperator (some (op, lexeme.pos)) (some (op, K.move lexeme.pos)) l l'
  | none {l l' : Lexer} (h : K.Beside l l') : ShownOperator none none l l'

theorem tracks_peek : Tracks K.Beside peek peek K.Peeked := by
  intro l l' h
  unfold peek ofLexer Lexer.peek
  rw [Beside] at h
  generalize l.fill = r at h
  generalize l'.fill = r' at h
  cases h with
  | error h => exact .error h
  | token behind => exact .ok (.token ⟨behind, rfl, rfl⟩)
  | stop ended => exact .ok (.stop (Filled.stop ended))
  | remark hrem h fresh => exact .ok (.remark hrem fresh (Filled.remark hrem h fresh))

theorem tracks_peekOnLine : Tracks K.Beside peekOnLine peekOnLine K.Shown := by
  refine tracks_peek.of_bind fun o o' => ?_
  intro l l' h
  cases h with
  | @token lexeme _ _ h =>
    have hlead : (lexeme.mapPos K.move).lead = lexeme.lead := rfl
    cases hl : lexeme.lead with
    | true =>
      simp only [hlead, hl, if_true]
      exact .ok (.none h.beside)
    | false =>
      simp only [hlead, hl, Bool.false_eq_true, if_false]
      exact .ok (.token hl h)
  | stop h =>
    have fresh := K.fresh
    cases hstop : K.stop with
    | none => exact .ok (.none h)
    | some after =>
      simp only [(fresh after hstop).1, if_true]
      exact .ok (.none h)
  | @remark lexeme _ _ _ hrem fresh h =>
    -- the second source shows nothing of its line, whether it ends or goes on in the next line
    have hshown : Alike K.Shown ((if lexeme.lead then pure none else pure (some lexeme) :
        Parse (Option Lexeme)) l) (.ok (none, l')) := by
      cases lexeme.lead with
      | true => exact .ok (.none h)
      | false => exact .ok (.remark hrem h)
    cases o' with
    | none => exact hshown
    | some after =>
      simp only [(fresh after rfl).1, if_true]
      exact hshown

theorem tracks_peekToken : Tracks K.Beside peekToken peekToken K.ShownToken := by
  refine tracks_peekOnLine.of_bind fun o o' => ?_
  intro l l' h
  cases h with
  | token hlead h => exact .ok (.token hlead h)
  | none h => exact .ok (.none h)
  | @remark lexeme _ _ hrem h =>
    refine .ok ?_
    rw [Option.map_some, hrem]
    exact .remark h

theorem tracks_peekOperator : Tracks K.Beside peekOperator peekOperator K.ShownOperator := by
  refine tracks_peekOnLine.of_bind fun o o' => ?_
  intro l l' h
  cases h with
  | none h => exact .ok (.none h)
  | @token lexeme _ _ _ h =>
    obtain ⟨token, pos, past, lead⟩ := lexeme
    cases token with
    | operator op => exact .ok (.operator rfl h)
    | _ => exact .ok (.none h.beside)
  | @remark lexeme _ _ hrem h =>
    obtain ⟨token, pos, past, lead⟩ := lexeme
    obtain rfl : token = .word .rem := hrem
    exact .ok (.none h)

theorem tracks_take (hrem : lexeme.token ≠ .word .rem) :
    Tracks (K.Holds lexeme) next next fun _ _ => K.Beside := by
  intro l l' h
  rw [h.eq, h.eq', next_of_held rfl, next_of_held rfl]
  exact .ok (Took.beside ⟨h.behind, rfl, rfl⟩ hrem)

variable (K) in
/-- What is taken without having been looked at. -/
inductive Given : Option Lexeme → Option Lexeme → Lexer → Lexer → Prop where
  | token {lexeme : Lexeme} {l l' : Lexer} (h : K.Took lexeme l l') :
      Given (some lexeme) (some (lexeme.mapPos K.move)) l l'
  | stop {c c' : Cursor} (ended : K.Ended c c') :
      Given none K.stop ⟨c, none, false⟩ ⟨c', K.stop, false⟩
  | remark {lexeme : Lexeme} {c c' : Cursor} {found : Option Lexeme}
      (hrem : lexeme.token = .word .rem)
      (h : Agreed K.move K.Known K.Linked K.Ended K.stop c.skipLine.scan (.ok found, c'))
      (fresh : Fresh found) :
      Given (some lexeme) found ⟨c, some lexeme, false⟩ ⟨c', found, false⟩

theorem tracks_given : Tracks K.Beside next next K.Given := by
  intro l l' h
  unfold next ofLexer Lexer.next
  rw [Beside] at h
  generalize l.fill = r at h
  generalize l'.fill = r' at h
  cases h with
  | error h => exact .error h
  | token behind => exact .ok (.token ⟨behind, rfl, rfl⟩)
  | stop ended => exact .ok (.stop ended)
  | remark hrem h fresh => exact .ok (.remark hrem h fresh)

/-! ### Tokens of the current line -/

/-- A reader that never gets what it insists on. -/
def Refuses {α : Type} (x : Parse α) : Prop :=
  ∀ l, ∃ e, x l = .error e ∧ e.code = .malformed

variable (K) in
/-- What two runs give that take a token of the current line. -/
inductive Fetched : Except Error (Lexeme × Lexer) → Except Error (Lexeme × Lexer) → Prop where
  | token {lexeme : Lexeme} {l l' : Lexer} (h : K.Took lexeme l l') :
      Fetched (.ok (lexeme, l)) (.ok (lexeme.mapPos K.move, l'))
  | error {e e' : Error} (h : e.code = e'.code) : Fetched (.error e) (.error e')
  | remark {lexeme : Lexeme} {l : Lexer} {e : Error} (hrem : lexeme.token = .word .rem)
      (h : e.code = .malformed) : Fetched (.ok (lexeme, l)) (.error e)

theorem fetched_nextOnLine (detail : String) (h : K.Beside l l') :
    K.Fetched (nextOnLine detail l) (nextOnLine detail l') := by
  have hgiven := tracks_given l l' h
  unfold nextOnLine
  generalize hr : next l = r at hgiven
  generalize hr' : next l' = r' at hgiven
  cases hgiven with
  | error h =>
    rw [bind_of_error hr, bind_of_error hr']
    exact .error h
  | @ok _ found _ _ hgiven =>
    rw [bind_of_ok hr, bind_of_ok hr']
    cases hgiven with
    | @token lexeme _ _ h =>
      have hlead : (lexeme.mapPos K.move).lead = lexeme.lead := rfl
      cases hl : lexeme.lead with
      | true =>
        simp only [hlead, hl, if_true]
        exact .error rfl
      | false =>
        simp only [hlead, hl, Bool.false_eq_true, if_false]
        exact .token h
    | stop =>
      have fresh := K.fresh
      cases hstop : K.stop with
      | none => exact .error rfl
      | some after =>
        simp only [(fresh after hstop).1, if_true]
        exact .error rfl
    | @remark lexeme c c' _ hrem h fresh =>
      have hfetched (e : Error) (he : e.code = .malformed) :
          K.Fetched ((if lexeme.lead then throw (.malformed lexeme.pos detail) else pure lexeme :
            Parse Lexeme) ⟨c, some lexeme, false⟩) (.error e) := by
        cases lexeme.lead with
        | true => exact .error he.symm
        | false => exact .remark hrem he
      cases found with
      | none => exact hfetched _ rfl
      | some after =>
        simp only [(fresh after rfl).1, if_true]
        exact hfetched _ rfl

/-- Taking a token of the current line, where a remark is refused. -/
theorem Tracks.of_nextOnLine {α : Type} {Q : α → α → Lexer → Lexer → Prop} {detail : String}
    {k k' : Lexeme → Parse α}
    (hk : ∀ lexeme, Tracks (K.Took lexeme) (k lexeme) (k' (lexeme.mapPos K.move)) Q)
    (hrem : ∀ lexeme, lexeme.token = .word .rem → Refuses (k lexeme)) :
    Tracks K.Beside (nextOnLine detail >>= k) (nextOnLine detail >>= k') Q := by
  intro l l' h
  have hfetched := fetched_nextOnLine detail h
  generalize hr : nextOnLine detail l = r at hfetched
  generalize hr' : nextOnLine detail l' = r' at hfetched
  cases hfetched with
  | token h =>
    rw [bind_of_ok hr, bind_of_ok hr']
    exact hk _ _ _ h
  | error h =>
    rw [bind_of_error hr, bind_of_error hr']
    exact .error h
  | @remark lexeme m e hword hcode =>
    obtain ⟨e', he', hcode'⟩ := hrem lexeme hword m
    rw [bind_of_ok hr, he', bind_of_error hr']
    exact .error (hcode'.trans hcode.symm)

theorem tracks_expect {token : Token} (hrem : token ≠ .word .rem) (detail : String) :
    K.Moves id (expect token detail) (expect token detail) := by
  refine Tracks.of_nextOnLine (fun lexeme => ?_) fun lexeme hword l => ?_
  · intro l l' h
    have htoken : (lexeme.mapPos K.move).token = lexeme.token := rfl
    rw [htoken]
    split
    · rename_i heq
      exact .ok ⟨rfl, h.beside (heq ▸ hrem)⟩
    · exact .error rfl
  · rw [hword, if_neg hrem.symm]
    exact ⟨_, rfl, rfl⟩

theorem tracks_ident (detail : String) :
    K.Moves (fun found => (K.move found.1, found.2)) (ident detail) (ident detail) := by
  refine Tracks.of_nextOnLine (fun lexeme => ?_) fun lexeme hword l => ?_
  · intro l l' h
    obtain ⟨token, pos, past, lead⟩ := lexeme
    cases token with
    | ident name => exact .ok ⟨rfl, h.beside (by simp)⟩
    | _ => exact .error rfl
  · rw [hword]
    exact ⟨_, rfl, rfl⟩

/-! ### Expressions -/

theorem tracks_missing {α : Type} (detail : String) {Q : α → α → Lexer → Lexer → Prop} :
    Tracks K.Beside (missingPos >>= fun pos => throw (.malformed pos detail))
      (missingPos >>= fun pos => throw (.malformed pos detail)) Q := by
  have hpos : Tracks K.Beside missingPos missingPos fun _ _ _ _ => True := by
    refine tracks_peekOnLine.of_bind fun o o' => ?_
    intro l l' h
    cases h with
    | token => exact .ok trivial
    | none => exact .ok trivial
    | remark => exact .ok trivial
  exact hpos.of_bind fun _ _ => .of_throw rfl

variable {n : Nat} {nested nested' : Parse Expr}

theorem Moves.required {x x' : Parse (Option Expr)} (h : K.Moves (Option.map (Expr.mapPos K.move)) x x') :
    K.Moves (Expr.mapPos K.move) (required x) (required x') := by
  refine h.of_bind fun found => ?_
  cases found with
  | some e => exact .of_pure rfl
  | none => exact tracks_missing _

theorem moves_selectorTail (h : K.Moves (Expr.mapPos K.move) nested nested') (n : Nat) :
    K.Moves (Levels.mapPos K.move) (selectorTail nested n) (selectorTail nested' n) := by
  induction n with
  | zero => exact .outOfFuel
  | succ n ih =>
    refine h.of_bind fun e => Tracks.of_nextOnLine (fun lexeme => ?_) fun lexeme hword l => ?_
    · intro l l' htook
      obtain ⟨token, pos, past, lead⟩ := lexeme
      cases token with
      | comma =>
        refine ih.of_bind (fun rest => ?_) l l' (htook.beside (by simp))
        exact .of_pure rfl
      | colon =>
        refine ih.of_bind (fun rest => ?_) l l' (htook.beside (by simp))
        exact .of_pure rfl
      | rightParen => exact .ok ⟨rfl, htook.beside (by simp)⟩
      | _ => exact .error rfl
    · rw [hword]
      exact ⟨_, rfl, rfl⟩

theorem moves_selectorWith (h : K.Moves (Expr.mapPos K.move) nested nested') (n : Nat) :
    K.Moves (Levels.mapPos K.move) (selectorWith nested n) (selectorWith nested' n) := by
  have htail := moves_selectorTail h n
  refine tracks_peekToken.of_bind fun token token' => ?_
  intro l l' hshown
  cases hshown with
  | none hbeside => exact htail l l' hbeside
  | remark hbeside => exact htail l l' hbeside
  | @token lexeme _ _ _ hholds =>
    cases htoken : lexeme.token with
    | rightParen =>
      refine (tracks_take (by simp [htoken])).of_bind (fun _ _ => ?_) l l' hholds
      exact .of_pure fun _ _ hbeside => ⟨rfl, hbeside⟩
    | _ => exact htail l l' hholds.beside

theorem tracks_pushback {lexeme : Lexeme} :
    Tracks (K.Took lexeme) (pushback >>= fun _ => pure none : Parse (Option Expr))
      (pushback >>= fun _ => pure none)
      fun e e' l l' => e' = e.map (Expr.mapPos K.move) ∧ K.Beside l l' := by
  intro l l' h
  have hbehind := h.behind
  rw [h.eq, h.eq']
  exact .ok ⟨rfl, Filled.token hbehind⟩

theorem tracks_atomicFrom (h : K.Moves (Expr.mapPos K.move) nested nested') (n : Nat)
    (lexeme : Lexeme) :
    Tracks (K.Took lexeme) (atomicFrom nested n lexeme.token lexeme.pos)
      (atomicFrom nested' n lexeme.token (K.move lexeme.pos))
      fun e e' l l' => e' = e.map (Expr.mapPos K.move) ∧ K.Beside l l' := by
  intro l l' htook
  obtain ⟨token, pos, past, lead⟩ := lexeme
  cases token with
  | leftParen =>
    refine h.of_bind (fun e => ?_) l l' (htook.beside (by simp))
    exact (tracks_expect (by simp) _).of_bind fun _ => .of_pure rfl
  | number x => exact .ok ⟨rfl, htook.beside (by simp)⟩
  | text s => exact .ok ⟨rfl, htook.beside (by simp)⟩
  | ident name =>
    refine tracks_peekToken.of_bind (fun token token' => ?_) l l' (htook.beside (by simp))
    intro l l' hshown
    cases hshown with
    | none hbeside => exact .ok ⟨rfl, hbeside⟩
    | remark hbeside => exact .ok ⟨rfl, hbeside⟩
    | @token after _ _ _ hholds =>
      cases hafter : after.token with
      | leftParen =>
        refine (tracks_take (by simp [hafter])).of_bind (fun _ _ => ?_) l l' hholds
        exact (moves_selectorWith h n).of_bind fun s => .of_pure rfl
      | _ => exact .ok ⟨rfl, hholds.beside⟩
  | word w =>
    dsimp only [atomicFrom]
    cases htruth : w.truth? with
    | none => exact tracks_pushback l l' htook
    | some b =>
      refine .ok ⟨rfl, htook.beside ?_⟩
      rintro hrem
      cases hrem
      cases htruth
  | _ => exact tracks_pushback l l' htook

theorem moves_atomic (h : K.Moves (Expr.mapPos K.move) nested nested') (n : Nat) :
    K.Moves (Option.map (Expr.mapPos K.move)) (atomic nested n) (atomic nested' n) := by
  rw [atomic_eq, atomic_eq]
  refine tracks_given.of_bind fun o o' => ?_
  intro l l' hgiven
  cases hgiven with
  | @token lexeme _ _ htook =>
    have hlead : (lexeme.mapPos K.move).lead = lexeme.lead := rfl
    cases hl : lexeme.lead with
    | true =>
      simp only [hlead, hl, if_true]
      exact tracks_pushback l l' htook
    | false =>
      simp only [hlead, hl, Bool.false_eq_true, if_false]
      exact tracks_atomicFrom h n lexeme l l' htook
  | @stop c c' ended =>
    -- the second source is at its end too, or gives the token of its next line back
    have hend : K.Filled (.ok none, ⟨c, none, true⟩) (.ok K.stop, ⟨c', K.stop, true⟩) := .stop ended
    have fresh := K.fresh
    cases hstop : K.stop with
    | none =>
      refine .ok ⟨rfl, ?_⟩
      rw [hstop] at hend
      rwa [Beside, fill_at_end (K.ended ended).1, fill_at_end ((K.ended ended).2 hstop)]
    | some after =>
      simp only [(fresh after hstop).1, if_true]
      refine .ok ⟨rfl, ?_⟩
      rw [hstop] at hend
      rwa [Beside, fill_at_end (K.ended ended).1]
  | @remark lexeme c c' _ hrem h fresh =>
    -- the remark is given back, and so is what the second source shows of its next line
    have hback : (if lexeme.lead = true then pushback >>= fun _ => pure none
        else atomicFrom nested n lexeme.token lexeme.pos : Parse (Option Expr))
        ⟨c, some lexeme, false⟩ = .ok (none, ⟨c, some lexeme, true⟩) := by
      rw [hrem]
      split <;> rfl
    have hend (hnone : o' = none) : c'.scan = (.ok none, c') := by
      generalize c.skipLine.scan = r at h
      generalize hr' : ((.ok o', c') : Except Error (Option Lexeme) × Cursor) = r' at h
      cases h with
      | token => cases hnone ▸ hr'
      | stop ended =>
        obtain ⟨hstop, rfl⟩ := Prod.mk.inj hr'
        exact (K.ended ended).2 ((Except.ok.inj hstop).symm.trans hnone)
    dsimp only
    rw [hback]
    cases o' with
    | none =>
      refine .ok ⟨rfl, ?_⟩
      rw [Beside, fill_at_end (hend rfl)]
      exact .remark hrem h fresh
    | some after =>
      simp only [(fresh after rfl).1, if_true]
      exact .ok ⟨rfl, Filled.remark hrem h fresh⟩

theorem moves_powerTail {atom atom' : Parse (Option Expr)}
    (h : K.Moves (Option.map (Expr.mapPos K.move)) atom atom') (n : Nat) (lhs : Expr) :
    K.Moves (Expr.mapPos K.move) (powerTail atom n lhs) (powerTail atom' n (lhs.mapPos K.move)) := by
  induction n generalizing lhs with
  | zero => exact .outOfFuel
  | succ n ih =>
    refine tracks_peekOperator.of_bind fun o o' => ?_
    intro l l' hshown
    cases hshown with
    | none hbeside => exact .ok ⟨rfl, hbeside⟩
    | @operator op lexeme _ _ hop hholds =>
      cases op with
      | caret =>
        refine (tracks_take (by simp [hop])).of_bind (fun _ _ => ?_) l l' hholds
        exact h.required.of_bind fun rhs => ih (.binary lexeme.pos .power lhs rhs)
      | _ => exact .ok ⟨rfl, hholds.beside⟩

theorem moves_power (h : K.Moves (Expr.mapPos K.move) nested nested') (n : Nat) :
    K.Moves (Option.map (Expr.mapPos K.move)) (power nested n) (power nested' n) := by
  refine (moves_atomic h n).of_bind fun found => ?_
  cases found with
  | none => exact .of_pure rfl
  | some lhs => exact (moves_powerTail (moves_atomic h n) n lhs).of_map fun _ => rfl

theorem moves_operand (h : K.Moves (Expr.mapPos K.move) nested nested') (n : Nat) :
    K.Moves (Option.map (Expr.mapPos K.move)) (operand nested n) (operand nested' n) := by
  refine tracks_peekOperator.of_bind fun o o' => ?_
  intro l l' hshown
  cases hshown with
  | none hbeside => exact moves_power h n l l' hbeside
  | @operator op lexeme _ _ hop hholds =>
    dsimp only
    cases op.leads? with
    | none => exact moves_power h n l l' hholds.beside
    | some op =>
      refine (tracks_take (by simp [hop])).of_bind (fun _ _ => ?_) l l' hholds
      exact (moves_power h n).required.of_bind fun e => .of_pure rfl

theorem moves_climb (h : K.Moves (Expr.mapPos K.move) nested nested') (m n level : Nat) (lhs : Expr) :
    K.Moves (Expr.mapPos K.move) (climb nested m n level lhs)
      (climb nested' m n level (lhs.mapPos K.move)) := by
  induction n generalizing level lhs with
  | zero => exact .outOfFuel
  | succ n ih =>
    refine tracks_peekOperator.of_bind fun o o' => ?_
    intro l l' hshown
    cases hshown with
    | none hbeside => exact .ok ⟨rfl, hbeside⟩
    | @operator op lexeme _ _ hop hholds =>
      dsimp only
      cases op.joins? with
      | none => exact .ok ⟨rfl, hholds.beside⟩
      | some joined =>
        obtain ⟨joined, tightness⟩ := joined
        dsimp only
        split
        · exact .ok ⟨rfl, hholds.beside⟩
        · refine (tracks_take (by simp [hop])).of_bind (fun _ _ => ?_) l l' hholds
          refine (moves_operand h m).required.of_bind fun first => ?_
          exact (ih (tightness + 1) first).of_bind fun rhs => ih level (.binary lexeme.pos joined lhs rhs)

/-- Readers of expressions do the same on sources side by side. -/
theorem moves_expression (n : Nat) :
    K.Moves (Option.map (Expr.mapPos K.move)) (expression n) (expression n) := by
  induction n with
  | zero => exact .outOfFuel
  | succ n ih =>
    refine (moves_operand ih.required n).of_bind fun found => ?_
    cases found with
    | none => exact .of_pure rfl
    | some lhs => exact (moves_climb ih.required n n 1 lhs).of_map fun _ => rfl

theorem moves_expr (n : Nat) : K.Moves (Expr.mapPos K.move) (expr n) (expr n) :=
  (moves_expression n).required

theorem moves_selector (n : Nat) : K.Moves (Levels.mapPos K.move) (selector n) (selector n) :=
  moves_selectorWith (moves_expr n) n

/-! ### Arguments -/

theorem moves_items (keep : Bool) (m n : Nat) :
    K.Moves (Expr.mapPosList K.move) (items keep m n) (items keep m n) := by
  have hcons (e : Expr) (pos : Pos) (c : Char) (es : List Expr) :
      (if keep then e.mapPos K.move :: .mark (K.move pos) c :: Expr.mapPosList K.move es
        else e.mapPos K.move :: Expr.mapPosList K.move es) =
      Expr.mapPosList K.move (if keep then e :: .mark pos c :: es else e :: es) := by
    cases keep <;> rfl
  induction n with
  | zero => exact .outOfFuel
  | succ n ih =>
    refine (moves_expression m).of_bind fun found => ?_
    cases found with
    | none => exact .of_pure rfl
    | some e =>
      refine tracks_peekOnLine.of_bind fun o o' => ?_
      intro l l' hshown
      cases hshown with
      | none hbeside => exact .ok ⟨rfl, hbeside⟩
      | @remark lexeme _ _ hrem hbeside =>
        obtain ⟨token, pos, past, lead⟩ := lexeme
        obtain rfl : token = .word .rem := hrem
        exact .ok ⟨rfl, hbeside⟩
      | @token lexeme _ _ _ hholds =>
        obtain ⟨token, pos, past, lead⟩ := lexeme
        cases token with
        | comma =>
          refine (tracks_take (by simp)).of_bind (fun _ _ => ?_) l l' hholds
          exact ih.of_bind fun es => .of_pure (hcons e pos ',' es)
        | semicolon =>
          refine (tracks_take (by simp)).of_bind (fun _ _ => ?_) l l' hholds
          exact ih.of_bind fun es => .of_pure (hcons e pos ';' es)
        | _ => exact .ok ⟨rfl, hholds.beside⟩

theorem moves_arguments (keep : Bool) (n : Nat) :
    K.Moves (Option.map (Expr.mapPos K.move)) (arguments keep n) (arguments keep n) := by
  refine (moves_items keep n n).of_bind fun es => ?_
  cases es with
  | nil => exact .of_pure rfl
  | cons e es =>
    cases es with
    | nil => exact .of_pure rfl
    | cons e₂ es =>
      refine .of_pure ?_
      rw [Option.map_some, Expr.mapPos, Expr.mapPosList, Expr.pos_mapPos]
      rfl

end Coupling

end LineBasic
