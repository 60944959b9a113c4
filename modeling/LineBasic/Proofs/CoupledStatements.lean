import LineBasic.Proofs.Coupling
import LineBasic.Proofs.StatementReading

/-!
# Statements with the same tokens at other positions

Readers of statements do the same on two sources with corresponding tokens, but for the positions. The
second run may start from a draft that holds other code already; its addresses and loop numbers are
then higher. Where the first source ends the second one may go on.

The two runs have fuel of their own, and each has more of it than characters to come, so fuel never
decides what they do.
-/

namespace LineBasic

set_option autoImplicit false

/-! ### Fuel that suffices does not matter -/

namespace Parse

variable {n k : Nat} {l : Lexer}

theorem expression_congr (hn : l.size < n) (hk : l.size < k) : expression n l = expression k l :=
  (Layers.parseExpression_eq n k l hn hk).trans (Layers.parseExpression_eq k k l hk hk).symm

theorem expr_congr (hn : l.size < n) (hk : l.size < k) : expr n l = expr k l :=
  required_congr (expression_congr hn hk)

theorem selector_congr (hn : l.size < n) (hk : l.size < k) : selector n l = selector k l := by
  have hagree : AgreeBelow (min n k) (expr n) (expr k) :=
    fun l hl => expr_congr (by omega) (by omega)
  exact selectorWith_congr hagree (shrinks_expr n) (by omega) hn hk

theorem items_congr (keep : Bool) {m j : Nat} (hn : l.size < n) (hk : l.size < k) (hm : l.size < m)
    (hj : l.size < j) : items keep m n l = items keep j k l := by
  induction n generalizing k l with
  | zero => omega
  | succ n ih =>
    obtain ⟨k, rfl⟩ : ∃ i, k = i + 1 := ⟨k - 1, by omega⟩
    refine bind_congr (expression_congr hm hj) fun found l₁ hfound => ?_
    cases found with
    | none => rfl
    | some e =>
      have h₁ := Layers.shrinks_parseExpression m l _ l₁ hfound
      refine bind_congr rfl fun looked l₂ hlook => ?_
      have hmore {lexeme : Lexeme} {g : List Expr → List Expr} (hlooked : looked = some lexeme) :
          (next >>= fun _ => items keep m n >>= fun rest => pure (g rest)) l₂ =
            (next >>= fun _ => items keep j k >>= fun rest => pure (g rest)) l₂ := by
        refine bind_congr rfl fun _ l₃ hnext => ?_
        have h₃ := next_of_looked (hlooked ▸ hlook) hnext
        exact bind_congr (ih (by omega) (by omega) (by omega) (by omega)) fun _ _ _ => rfl
      split
      · exact hmore rfl
      · exact hmore rfl
      · rfl

theorem arguments_congr (keep : Bool) (hn : l.size < n) (hk : l.size < k) :
    arguments keep n l = arguments keep k l :=
  bind_congr (items_congr keep hn hk hn hk) fun _ _ _ => rfl

end Parse

namespace Coupling

open Build Parse

variable (K : Coupling)

/-! ### Readers that extend a draft -/

def draft (d : Draft) : Draft :=
  K.base.behind K.move d

def stmt (s : Stmt LoopId) : Stmt LoopId :=
  s.relocated K.move K.base.here (· + K.base.exits.size)

def openLoop (loop : OpenLoop) : OpenLoop :=
  loop.relocated K.move K.base.here K.base.exits.size

/-- Two runs that succeed alike, with corresponding drafts, or both fail with the same code. Where the
first source has ended too soon the second one may go on. -/
inductive Built {α : Type} (Q : α → α → Lexer → Lexer → Prop) :
    Except Error ((α × Draft) × Lexer) → Except Error ((α × Draft) × Lexer) → Prop where
  | ok {a a' : α} {d : Draft} {l l' : Lexer} (h : Q a a' l l') :
      Built Q (.ok ((a, d), l)) (.ok ((a', K.draft d), l'))
  | error {e e' : Error} (h : e.code = e'.code) : Built Q (.error e) (.error e')
  | further {e : Error} {r' : Except Error ((α × Draft) × Lexer)} (h : K.stop ≠ none) :
      Built Q (.error e) r'

/-- Two readers do the same on corresponding drafts and lexers related by `P`. -/
def Builds {α : Type} (P : Lexer → Lexer → Prop) (x x' : Build α)
    (Q : α → α → Lexer → Lexer → Prop) : Prop :=
  ∀ d l l', P l l' → K.Built Q (x d l) (x' (K.draft d) l')

/-- Lexers side by side, each with fewer characters to come than it has fuel. -/
structure Meets (n n' : Nat) (l l' : Lexer) : Prop where
  beside : K.Beside l l'
  size : l.size < n
  size' : l'.size < n'

/-- Lexers that hold a token, each with fewer characters to come than it has fuel. -/
structure Keeps (n n' : Nat) (lexeme : Lexeme) (l l' : Lexer) : Prop where
  holds : K.Holds lexeme l l'
  size : l.size < n
  size' : l'.size < n'

/-- Two readers of which the second one gives what the first one gives, but for `f`. -/
def Pairs (n n' : Nat) {α : Type} (f : α → α) (x x' : Build α) : Prop :=
  K.Builds (K.Meets n n') x x' fun a a' l l' => a' = f a ∧ K.Meets n n' l l'

variable {K} {n n' : Nat} {lexeme : Lexeme} {l l' : Lexer}

theorem Meets.mono {m m' : Nat} (h : K.Meets n n' l l') (hn : n ≤ m) (hn' : n' ≤ m') :
    K.Meets m m' l l' :=
  ⟨h.beside, Nat.lt_of_lt_of_le h.size hn, Nat.lt_of_lt_of_le h.size' hn'⟩

theorem Meets.ne_zero (h : K.Meets n n' l l') : ∃ m m', n = m + 1 ∧ n' = m' + 1 := by
  have hn := h.size
  have hn' := h.size'
  exact ⟨n - 1, n' - 1, by omega, by omega⟩

theorem Keeps.meets (h : K.Keeps n n' lexeme l l') : K.Meets n n' l l' :=
  ⟨h.holds.beside, h.size, h.size'⟩

namespace Builds

variable {α β : Type} {P : Lexer → Lexer → Prop} {Q Q' : α → α → Lexer → Lexer → Prop}
  {R : β → β → Lexer → Lexer → Prop}

theorem of_pure {a a' : α} (h : ∀ l l', P l l' → Q a a' l l') : K.Builds P (pure a) (pure a') Q :=
  fun _ l l' hp => .ok (h l l' hp)

theorem of_throw {e e' : Error} (h : e.code = e'.code) : K.Builds P (throw e) (throw e') Q :=
  fun _ _ _ _ => .error h

theorem of_bind {x x' : Build α} {f f' : α → Build β} (hx : K.Builds P x x' Q)
    (hf : ∀ a a', K.Builds (Q a a') (f a) (f' a') R) : K.Builds P (x >>= f) (x' >>= f') R := by
  intro d l l' hp
  have hbuilt := hx d l l' hp
  generalize hr : x d l = r at hbuilt
  generalize hr' : x' (K.draft d) l' = r' at hbuilt
  cases hbuilt with
  | error h =>
    rw [Build.bind_of_error hr, Build.bind_of_error hr']
    exact .error h
  | further h =>
    rw [Build.bind_of_error hr]
    exact .further h
  | @ok a a' d₁ m m' hq =>
    rw [Build.bind_of_ok hr, Build.bind_of_ok hr']
    exact hf a a' d₁ m m' hq

theorem of_lift {x x' : Parse α} (h : Tracks P x x' Q) :
    K.Builds P (liftM x : Build α) (liftM x') Q := by
  intro d l l' hp
  have halike := h l l' hp
  generalize hr : x l = r at halike
  generalize hr' : x' l' = r' at halike
  cases halike with
  | ok hq =>
    rw [Build.lift_of_ok hr, Build.lift_of_ok hr']
    exact .ok hq
  | error h =>
    rw [Build.lift_of_error hr, Build.lift_of_error hr']
    exact .error h

theorem conseq {x x' : Build α} (hx : K.Builds P x x' Q)
    (hq : ∀ a a' l l', Q a a' l l' → Q' a a' l l') : K.Builds P x x' Q' := by
  intro d l l' hp
  have hbuilt := hx d l l' hp
  generalize x d l = r at hbuilt
  generalize x' (K.draft d) l' = r' at hbuilt
  cases hbuilt with
  | ok h => exact .ok (hq _ _ _ _ h)
  | error h => exact .error h
  | further h => exact .further h

end Builds

namespace Pairs

variable {α β : Type} {f : α → α} {g : β → β}

theorem of_pure {a a' : α} (h : a' = f a) : K.Pairs n n' f (pure a) (pure a') :=
  Builds.of_pure fun _ _ hmeets => ⟨h, hmeets⟩

theorem of_bind {x x' : Build α} {k k' : α → Build β} (hx : K.Pairs n n' f x x')
    (hk : ∀ a, K.Pairs n n' g (k a) (k' (f a))) : K.Pairs n n' g (x >>= k) (x' >>= k') := by
  refine Builds.of_bind hx fun a a' => ?_
  rintro d l l' ⟨rfl, hmeets⟩
  exact hk a d l l' hmeets

theorem of_map {x x' : Build α} {k k' : α → β} (hx : K.Pairs n n' f x x')
    (hk : ∀ a, k' (f a) = g (k a)) : K.Pairs n n' g (k <$> x) (k' <$> x') := by
  rw [map_eq_pure_bind, map_eq_pure_bind]
  exact hx.of_bind fun a => of_pure (hk a)

theorem of_modify {h h' : Draft → Draft} (hd : ∀ d, h' (K.draft d) = K.draft (h d)) :
    K.Pairs n n' id (modifyThe Draft h : Build PUnit) (modifyThe Draft h') := by
  intro d l l' hmeets
  change K.Built _ (.ok ((PUnit.unit, h d), l)) (.ok ((PUnit.unit, h' (K.draft d)), l'))
  rw [hd]
  exact .ok ⟨rfl, hmeets⟩

theorem of_moves {x x' : Parse α} (h : K.Moves f x x') (hx : Shrinks x) (hx' : Shrinks x') :
    K.Pairs n n' f (liftM x) (liftM x') := by
  refine Builds.of_lift fun l l' hmeets => ?_
  have halike := h l l' hmeets.beside
  generalize hr : x l = r at halike
  generalize hr' : x' l' = r' at halike
  cases halike with
  | ok hq =>
    exact .ok ⟨hq.1, hq.2, Nat.lt_of_le_of_lt (hx _ _ _ hr) hmeets.size,
      Nat.lt_of_le_of_lt (hx' _ _ _ hr') hmeets.size'⟩
  | error h => exact .error h

end Pairs

/-- Readers with fuel of their own, of which the amount does not matter. -/
theorem Tracks.of_fuel {α : Type} {f : α → α} {x : Nat → Parse α} (h : ∀ n, K.Moves f (x n) (x n))
    (hx : ∀ n, Shrinks (x n)) (hfuel : ∀ {n k l}, l.size < n → l.size < k → x n l = x k l)
    {m m' : Nat} (hm : m ≤ n) (hm' : m' ≤ n') :
    Tracks (K.Meets m m') (x n) (x n') fun a a' l l' => a' = f a ∧ K.Meets m m' l l' := by
  intro l l' hmeets
  have hl := hmeets.size
  have hl' := hmeets.size'
  rw [@hfuel n (n + n') l (by omega) (by omega), @hfuel n' (n + n') l' (by omega) (by omega)]
  have halike := h (n + n') l l' hmeets.beside
  generalize hr : x (n + n') l = r at halike
  generalize hr' : x (n + n') l' = r' at halike
  cases halike with
  | ok hq =>
    exact .ok ⟨hq.1, hq.2, Nat.lt_of_le_of_lt (hx _ _ _ _ hr) hl,
      Nat.lt_of_le_of_lt (hx _ _ _ _ hr') hl'⟩
  | error h => exact .error h

/-! ### Small readers -/

theorem shrinks_ident (detail : String) : Shrinks (ident detail) :=
  fun _ _ _ h => Nat.le_of_lt (ident_ok h)

theorem pairs_ident (detail : String) :
    K.Pairs n n' (fun found => (K.move found.1, found.2)) (liftM (ident detail))
      (liftM (ident detail)) :=
  .of_moves (tracks_ident detail) (shrinks_ident detail) (shrinks_ident detail)

theorem builds_ident (detail : String) :
    K.Builds (K.Meets (n + 1) (n' + 1)) (liftM (ident detail)) (liftM (ident detail))
      fun found found' l l' => found' = (K.move found.1, found.2) ∧ K.Meets n n' l l' := by
  refine Builds.of_lift fun l l' hmeets => ?_
  have halike := tracks_ident detail l l' hmeets.beside
  have hl := hmeets.size
  have hl' := hmeets.size'
  generalize hr : ident detail l = r at halike
  generalize hr' : ident detail l' = r' at halike
  cases halike with
  | ok hq =>
    have hlt := ident_ok hr
    have hlt' := ident_ok hr'
    exact .ok ⟨hq.1, hq.2, by omega, by omega⟩
  | error h => exact .error h

theorem pairs_expect {token : Token} (hrem : token ≠ .word .rem) (detail : String) :
    K.Pairs n n' id (liftM (expect token detail)) (liftM (expect token detail)) :=
  .of_moves (tracks_expect hrem detail) (shrinks_expect token detail) (shrinks_expect token detail)

theorem pairs_expr : K.Pairs n n' (Expr.mapPos K.move) (liftM (expr n)) (liftM (expr n')) :=
  .of_lift (.of_fuel moves_expr shrinks_expr expr_congr (Nat.le_refl n) (Nat.le_refl n'))

theorem tracks_selectorWithin {m m' : Nat} (hm : m ≤ n) (hm' : m' ≤ n') :
    Tracks (K.Meets m m') (selector n) (selector n')
      fun s s' l l' => s' = s.mapPos K.move ∧ K.Meets m m' l l' :=
  .of_fuel moves_selector (fun n => shrinks_selectorWith (shrinks_expr n) n) selector_congr hm hm'

theorem pairs_selectorWithin {m m' : Nat} (hm : m ≤ n) (hm' : m' ≤ n') :
    K.Pairs m m' (Levels.mapPos K.move) (liftM (selector n)) (liftM (selector n')) :=
  .of_lift (tracks_selectorWithin hm hm')

theorem pairs_selector :
    K.Pairs n n' (Levels.mapPos K.move) (liftM (selector n)) (liftM (selector n')) :=
  pairs_selectorWithin (Nat.le_refl n) (Nat.le_refl n')

theorem pairs_arguments (keep : Bool) :
    K.Pairs n n' (Option.map (Expr.mapPos K.move)) (liftM (arguments keep n))
      (liftM (arguments keep n')) :=
  .of_lift (.of_fuel (moves_arguments keep) (shrinks_arguments keep) (arguments_congr keep)
    (Nat.le_refl n) (Nat.le_refl n'))

theorem Keeps.next (h : K.Keeps n n' lexeme l l') (hrem : lexeme.token ≠ .word .rem) :
    ∃ m m', Parse.next l = .ok (some lexeme, m) ∧
      Parse.next l' = .ok (some (lexeme.mapPos K.move), m') ∧ K.Meets n n' m m' := by
  have hn : Parse.next l = .ok (some lexeme, ⟨l.cursor, some lexeme, false⟩) := by
    rw [h.holds.eq, next_of_held rfl]
  have hn' : Parse.next l' = .ok (some (lexeme.mapPos K.move),
      ⟨l'.cursor, some (lexeme.mapPos K.move), false⟩) := by
    rw [h.holds.eq', next_of_held rfl]
  refine ⟨_, _, hn, hn', ?_, ?_, ?_⟩
  · exact Took.beside ⟨h.holds.behind, rfl, rfl⟩ hrem
  · exact Nat.lt_of_le_of_lt (shrinks_next _ _ _ hn) h.size
  · exact Nat.lt_of_le_of_lt (shrinks_next _ _ _ hn') h.size'

theorem builds_take (hrem : lexeme.token ≠ .word .rem) :
    K.Builds (K.Keeps n n' lexeme) (liftM next) (liftM next) fun _ _ => K.Meets n n' := by
  refine Builds.of_lift fun l l' hkeeps => ?_
  obtain ⟨m, m', hn, hn', hmeets⟩ := hkeeps.next hrem
  rw [hn, hn']
  exact .ok hmeets

/-- Looking at the next token of the line, where a remark is as good as nothing. -/
theorem Builds.of_peekToken {α : Type} {Q : α → α → Lexer → Lexer → Prop}
    {k k' : Option Token → Build α} (hnone : K.Builds (K.Meets n n') (k none) (k' none) Q)
    (hrem : k (some (.word .rem)) = k none)
    (hsome : ∀ lexeme, lexeme.lead = false → K.Builds (K.Keeps n n' lexeme)
      (k (some lexeme.token)) (k' (some lexeme.token)) Q) :
    K.Builds (K.Meets n n') (liftM peekToken >>= k) (liftM peekToken >>= k') Q := by
  intro d l l' hmeets
  have halike := tracks_peekToken l l' hmeets.beside
  generalize hr : peekToken l = r at halike
  generalize hr' : peekToken l' = r' at halike
  cases halike with
  | error h =>
    rw [Build.bind_of_error (Build.lift_of_error hr), Build.bind_of_error (Build.lift_of_error hr')]
    exact .error h
  | ok hshown =>
    rw [Build.bind_of_ok (Build.lift_of_ok hr), Build.bind_of_ok (Build.lift_of_ok hr')]
    have hsize := Nat.lt_of_le_of_lt (shrinks_peekToken _ _ _ hr) hmeets.size
    have hsize' := Nat.lt_of_le_of_lt (shrinks_peekToken _ _ _ hr') hmeets.size'
    cases hshown with
    | none h => exact hnone d _ _ ⟨h, hsize, hsize'⟩
    | remark h =>
      rw [hrem]
      exact hnone d _ _ ⟨h, hsize, hsize'⟩
    | token hlead h => exact hsome _ hlead d _ _ ⟨h, hsize, hsize'⟩

theorem pairs_accept {token : Token} (hrem : token ≠ .word .rem) :
    K.Pairs n n' id (accept token) (accept token) := by
  refine Builds.of_peekToken ?_ ?_ fun lexeme _ => ?_
  · exact Pairs.of_pure rfl
  · rw [if_neg (by simpa using hrem.symm)]
    rfl
  · split
    · rename_i heq
      have htoken : lexeme.token ≠ .word .rem := Option.some.inj heq ▸ hrem
      exact (builds_take htoken).of_bind fun _ _ => .of_pure fun _ _ hmeets => ⟨rfl, hmeets⟩
    · exact Builds.of_pure fun _ _ hkeeps => ⟨rfl, hkeeps.meets⟩

/-- A reader that never gets what it insists on. -/
def Refused {α : Type} (x : Build α) : Prop :=
  ∀ d l, ∃ e, x d l = .error e ∧ e.code = .malformed

/-- Taking a token of the current line, where a remark is refused. -/
theorem Builds.of_nextOnLine {α : Type} {Q : α → α → Lexer → Lexer → Prop} {detail : String}
    {k k' : Lexeme → Build α}
    (hk : ∀ lexeme, lexeme.token ≠ .word .rem →
      K.Builds (K.Meets n n') (k lexeme) (k' (lexeme.mapPos K.move)) Q)
    (hrem : ∀ lexeme, lexeme.token = .word .rem → Refused (k lexeme) ∧ Refused (k' lexeme)) :
    K.Builds (K.Meets (n + 1) (n' + 1)) (liftM (nextOnLine detail) >>= k)
      (liftM (nextOnLine detail) >>= k') Q := by
  intro d l l' hmeets
  have hfetched := fetched_nextOnLine detail hmeets.beside
  generalize hr : nextOnLine detail l = r at hfetched
  generalize hr' : nextOnLine detail l' = r' at hfetched
  cases hfetched with
  | @token lexeme m m' htook =>
    rw [Build.bind_of_ok (Build.lift_of_ok hr), Build.bind_of_ok (Build.lift_of_ok hr')]
    have hsize := nextOnLine_ok hr
    have hsize' := nextOnLine_ok hr'
    have hlt := hmeets.size
    have hlt' := hmeets.size'
    by_cases hword : lexeme.token = .word .rem
    · obtain ⟨e, he, hcode⟩ := (hrem lexeme hword).1 d m
      obtain ⟨e', he', hcode'⟩ := (hrem (lexeme.mapPos K.move) hword).2 (K.draft d) m'
      rw [he, he']
      exact .error (hcode.trans hcode'.symm)
    · exact hk lexeme hword d m m' ⟨htook.beside hword, by omega, by omega⟩
  | error h =>
    rw [Build.bind_of_error (Build.lift_of_error hr), Build.bind_of_error (Build.lift_of_error hr')]
    exact .error h
  | @remark lexeme m e hword hcode =>
    obtain ⟨e', he', hcode'⟩ := (hrem lexeme hword).1 d m
    rw [Build.bind_of_ok (Build.lift_of_ok hr), he', Build.bind_of_error (Build.lift_of_error hr')]
    exact .error (hcode'.trans hcode.symm)

theorem Pairs.of_nextOnLine {α : Type} {f : α → α} {detail : String} {k k' : Lexeme → Build α}
    (hk : ∀ lexeme, lexeme.token ≠ .word .rem →
      K.Pairs n n' f (k lexeme) (k' (lexeme.mapPos K.move)))
    (hrem : ∀ lexeme, lexeme.token = .word .rem → Refused (k lexeme) ∧ Refused (k' lexeme)) :
    K.Pairs n n' f (liftM (nextOnLine detail) >>= k) (liftM (nextOnLine detail) >>= k') := by
  intro d l l' hmeets
  exact Builds.of_nextOnLine hk hrem d l l' (hmeets.mono (Nat.le_succ n) (Nat.le_succ n'))

theorem builds_constant : K.Builds (K.Meets (n + 1) (n' + 1)) constant constant
    fun a a' l l' => a' = id a ∧ K.Meets n n' l l' := by
  refine Builds.of_nextOnLine (fun lexeme _ => ?_) fun lexeme hword => ?_
  · obtain ⟨token, pos, past, lead⟩ := lexeme
    cases token with
    | number x => exact Pairs.of_pure rfl
    | text s => exact Pairs.of_pure rfl
    | operator op =>
      cases op with
      | minus =>
        refine Pairs.of_nextOnLine (fun lexeme _ => ?_) fun lexeme hword => ?_
        · obtain ⟨token, pos', past', lead'⟩ := lexeme
          cases token with
          | number x => exact Pairs.of_pure rfl
          | _ => exact Builds.of_throw rfl
        · dsimp only
          rw [hword]
          exact ⟨fun _ _ => ⟨_, rfl, rfl⟩, fun _ _ => ⟨_, rfl, rfl⟩⟩
      | _ => exact Builds.of_throw rfl
    | word w =>
      dsimp only [Lexeme.mapPos]
      cases w.truth? with
      | none => exact Builds.of_throw rfl
      | some b => exact Pairs.of_pure rfl
    | _ => exact Builds.of_throw rfl
  · rw [hword]
    exact ⟨fun _ _ => ⟨_, rfl, rfl⟩, fun _ _ => ⟨_, rfl, rfl⟩⟩

theorem pairs_addData (c : Constant) : K.Pairs n n' id (addData c) (addData c) :=
  .of_modify fun d => K.base.addData_behind K.move d c

theorem pairs_data (n : Nat) : ∀ n', K.Pairs n n' id (data n) (data n') := by
  induction n with
  | zero => exact fun _ _ _ _ h => absurd h.size (Nat.not_lt_zero _)
  | succ n ih =>
    intro n'
    cases n' with
    | zero => exact fun _ _ _ h => absurd h.size' (Nat.not_lt_zero _)
    | succ n' =>
      have hmore (c : Constant) : K.Pairs n n' id
          (addData c >>= fun _ => accept .comma >>= fun b => if b then data n else pure PUnit.unit)
          (addData c >>= fun _ => accept .comma >>= fun b => if b then data n' else pure PUnit.unit) := by
        refine (pairs_addData c).of_bind fun _ => (pairs_accept (by simp)).of_bind fun b => ?_
        cases b with
        | true => exact ih n'
        | false => exact Pairs.of_pure rfl
      refine builds_constant.of_bind fun c c' => ?_
      rintro d l l' ⟨rfl, hmeets⟩
      exact (hmore _).conseq (fun _ _ _ _ h => ⟨h.1, h.2.mono (Nat.le_succ n) (Nat.le_succ n')⟩)
        d l l' hmeets

/-! ### Statements -/

theorem pairs_command (pos : Pos) (name : String) : K.Pairs n n' K.stmt
    (command n pos name) (command n' (K.move pos) name) :=
  (pairs_arguments _).of_bind fun _ => .of_pure rfl

theorem builds_assignedElement? (hparen : lexeme.token = .leftParen) :
    K.Builds (K.Keeps n n' lexeme) (assignedElement? n) (assignedElement? n')
      fun o o' l l' => o' = o.map (Levels.mapPos K.move) ∧ K.Meets n n' l l' := by
  intro d l l' hkeeps
  obtain ⟨m, m', hn, hn', hmeets⟩ := hkeeps.next (by simp [hparen])
  rw [assignedElement?_eq hn, assignedElement?_eq hn']
  have hselector := tracks_selectorWithin (Nat.le_refl n) (Nat.le_refl n') m m' hmeets
  generalize selector n m = r at hselector
  generalize selector n' m' = r' at hselector
  cases hselector with
  | error => exact .ok ⟨rfl, hkeeps.meets⟩
  | @ok s _ m₁ m₁' hread =>
    obtain ⟨rfl, hmeets₁⟩ := hread
    refine Builds.of_bind (pairs_accept (by simp)) (fun equal equal' => ?_) d m₁ m₁' hmeets₁
    rintro d₁ l₁ l₁' ⟨rfl, hmeets₂⟩
    cases equal' with
    | true => exact .ok ⟨rfl, hmeets₂⟩
    | false => exact .ok ⟨rfl, hkeeps.meets⟩

theorem pairs_assignmentOrCommand (pos : Pos) (name : String) : K.Pairs n n' K.stmt
    (assignmentOrCommand n pos name) (assignmentOrCommand n' (K.move pos) name) := by
  refine Builds.of_peekToken (pairs_command pos name) rfl fun lexeme _ d l l' hkeeps => ?_
  have hcommand := pairs_command pos name d l l' hkeeps.meets
  cases htoken : lexeme.token with
  | leftParen =>
    refine (builds_assignedElement? htoken).of_bind (fun s s' => ?_) d l l' hkeeps
    rintro d l l' ⟨rfl, hmeets⟩
    cases s with
    | none => exact pairs_command pos name d l l' hmeets
    | some s =>
      refine pairs_expr.of_bind (fun e => ?_) d l l' hmeets
      exact .of_pure rfl
  | operator op =>
    cases op with
    | equal =>
      refine (builds_take (by simp [htoken])).of_bind (fun _ _ => ?_) d l l' hkeeps
      exact pairs_expr.of_bind fun e => .of_pure rfl
    | _ => exact hcommand
  | _ => exact hcommand

theorem pairs_assign (pos : Pos) : K.Pairs n n' K.stmt (assign n pos)
    (assign n' (K.move pos)) := by
  refine (pairs_ident _).of_bind fun found => (pairs_accept (by simp)).of_bind fun b => ?_
  cases b with
  | true =>
    refine pairs_selector.of_bind fun s => (pairs_expect (by simp) _).of_bind fun _ => ?_
    exact pairs_expr.of_bind fun e => .of_pure rfl
  | false =>
    refine (pairs_expect (by simp) _).of_bind fun _ => ?_
    exact pairs_expr.of_bind fun e => .of_pure rfl

theorem pairs_dim (pos : Pos) : K.Pairs n n' K.stmt (dim n pos)
    (dim n' (K.move pos)) := by
  refine (pairs_ident _).of_bind fun found => (pairs_expect (by simp) _).of_bind fun _ => ?_
  refine pairs_selector.of_bind fun s => ?_
  have hfirst : (s.mapPos K.move).first.isEmpty = s.first.isEmpty := Expr.isEmpty_mapPosList ..
  have hmore : (s.mapPos K.move).more.isEmpty = s.more.isEmpty := Expr.isEmpty_mapPosLevels ..
  dsimp only
  rw [hfirst, hmore]
  split
  · exact Builds.of_throw rfl
  · exact Pairs.of_pure rfl

theorem pairs_targets : ∀ f f' m m', m ≤ f → m' ≤ f' → m ≤ n → m' ≤ n' →
    K.Pairs m m' (List.map (Target.mapPos K.move)) (targets n f) (targets n' f') := by
  intro f
  induction f with
  | zero =>
    intro f' m m' hf _ _ _ d l l' hmeets
    obtain ⟨j, j', rfl, rfl⟩ := hmeets.ne_zero
    omega
  | succ f ih =>
    intro f' m m' hf hf' hn hn' d l l' hmeets
    obtain ⟨j, j', rfl, rfl⟩ := hmeets.ne_zero
    obtain ⟨f', rfl⟩ : ∃ k, f' = k + 1 := ⟨f' - 1, by omega⟩
    have hmore (t : Target) : K.Pairs j j' (List.map (Target.mapPos K.move))
        (accept .comma >>= fun b => if b then targets n f >>= fun more => pure (t :: more)
          else pure [t])
        (accept .comma >>= fun b => if b then targets n' f' >>= fun more =>
            pure (t.mapPos K.move :: more)
          else pure [t.mapPos K.move]) := by
      refine (pairs_accept (by simp)).of_bind fun b => ?_
      cases b with
      | true =>
        have hrest := ih f' j j' (by omega) (by omega) (by omega) (by omega)
        exact hrest.of_bind fun more => .of_pure rfl
      | false => exact Pairs.of_pure rfl
    refine (builds_ident _).of_bind (fun found found' => ?_) d l l' hmeets
    rintro d l l' ⟨rfl, hmeets⟩
    obtain ⟨pos, name⟩ := found
    refine Builds.conseq (Pairs.of_bind (pairs_accept (by simp)) fun b => ?_)
      (fun _ _ _ _ h => ⟨h.1, h.2.mono (Nat.le_succ j) (Nat.le_succ j')⟩) d l l' hmeets
    cases b with
    | true =>
      refine (pairs_selectorWithin (by omega) (by omega)).of_bind fun s => ?_
      exact hmore (.element pos name s.selector)
    | false => exact hmore (.var pos name)

theorem pairs_target : K.Pairs n n' (Expr.mapPos K.move) (target n) (target n') := by
  refine (pairs_accept (by simp)).of_bind fun b => ?_
  cases b with
  | true => exact (pairs_ident _).of_bind fun found => .of_pure rfl
  | false => exact pairs_expr

theorem builds_label : K.Builds (K.Meets (n + 1) (n' + 1)) label label
    fun s s' l l' => s' = id s ∧ K.Meets n n' l l' := by
  refine Builds.of_nextOnLine (fun lexeme _ => ?_) fun lexeme hword => ?_
  · obtain ⟨token, pos, past, lead⟩ := lexeme
    cases token with
    | number x => exact Pairs.of_pure rfl
    | ident name => exact Pairs.of_pure rfl
    | atSign => exact (pairs_ident _).of_bind fun found => .of_pure rfl
    | _ => exact Builds.of_throw rfl
  · rw [hword]
    exact ⟨fun _ _ => ⟨_, rfl, rfl⟩, fun _ _ => ⟨_, rfl, rfl⟩⟩

theorem pairs_labels (n : Nat) : ∀ n', K.Pairs n n' id (labels n) (labels n') := by
  induction n with
  | zero => exact fun _ _ _ _ h => absurd h.size (Nat.not_lt_zero _)
  | succ n ih =>
    intro n'
    cases n' with
    | zero => exact fun _ _ _ h => absurd h.size' (Nat.not_lt_zero _)
    | succ n' =>
      have hmore (first : String) : K.Pairs n n' id
          (accept .comma >>= fun b => if b then labels n >>= fun more => pure (first :: more)
            else pure [first])
          (accept .comma >>= fun b => if b then labels n' >>= fun more => pure (first :: more)
            else pure [first]) := by
        refine (pairs_accept (by simp)).of_bind fun b => ?_
        cases b with
        | true => exact (ih n').of_bind fun more => .of_pure rfl
        | false => exact Pairs.of_pure rfl
      refine builds_label.of_bind fun first first' => ?_
      rintro d l l' ⟨rfl, hmeets⟩
      exact (hmore _).conseq (fun _ _ _ _ h => ⟨h.1, h.2.mono (Nat.le_succ n) (Nat.le_succ n')⟩)
        d l l' hmeets

theorem pairs_guard : K.Pairs n n' (Option.map (Guard.mapPos K.move)) (guard n) (guard n') := by
  refine (pairs_accept (by simp)).of_bind fun b => ?_
  cases b with
  | true => exact pairs_expr.of_bind fun e => .of_pure rfl
  | false =>
    refine (pairs_accept (by simp)).of_bind fun b => ?_
    cases b with
    | true => exact pairs_expr.of_bind fun e => .of_pure rfl
    | false => exact Pairs.of_pure rfl

theorem pairs_onJump (pos : Pos) : K.Pairs n n' K.stmt (onJump n pos)
    (onJump n' (K.move pos)) := by
  refine pairs_expr.of_bind fun index => Pairs.of_nextOnLine (fun lexeme _ => ?_) fun lexeme hword => ?_
  · obtain ⟨token, pos', past, lead⟩ := lexeme
    cases token with
    | word w =>
      cases w with
      | goto => exact (pairs_labels n n').of_bind fun ss => .of_pure rfl
      | gosub => exact (pairs_labels n n').of_bind fun ss => .of_pure rfl
      | _ => exact Builds.of_throw rfl
    | _ => exact Builds.of_throw rfl
  · rw [hword]
    exact ⟨fun _ _ => ⟨_, rfl, rfl⟩, fun _ _ => ⟨_, rfl, rfl⟩⟩

/-! ### Loops -/

theorem pairs_here : K.Pairs n n' (· + K.base.here) here here :=
  fun d _ _ hmeets => .ok ⟨K.base.here_behind K.move d, hmeets⟩

theorem pairs_nextLoopId : K.Pairs n n' (· + K.base.exits.size) nextLoopId nextLoopId := by
  refine fun d _ _ hmeets => .ok ⟨?_, hmeets⟩
  simp [draft, Draft.behind, Nat.add_comm]

theorem pairs_openLoop (loop : OpenLoop) :
    K.Pairs n n' id (Build.openLoop loop) (Build.openLoop (K.openLoop loop)) :=
  .of_modify fun d => K.base.openLoop_behind K.move d loop

theorem pairs_closeLoop (loop : LoopId) :
    K.Pairs n n' id (closeLoop loop) (closeLoop (loop + K.base.exits.size)) :=
  .of_modify fun d => K.base.closeLoop_behind K.move d loop

theorem loops_draft (d : Draft) : (K.draft d).loops = d.loops.map K.openLoop := by
  rw [draft, Draft.behind, K.closed, List.append_nil]
  rfl

theorem pairs_takeLoop? :
    K.Pairs n n' (Option.map K.openLoop) takeLoop? takeLoop? := by
  intro d l l' hmeets
  rw [takeLoop?, Build.bind_of_ok rfl, Build.bind_of_ok rfl, loops_draft]
  cases d.loops with
  | nil => exact .ok ⟨rfl, hmeets⟩
  | cons loop outer =>
    have hd : { K.draft d with loops := outer.map K.openLoop } = K.draft { d with loops := outer } := by
      rw [← loops_draft { d with loops := outer }]
      rfl
    change K.Built _ (.ok ((some loop, { d with loops := outer }), l))
      (.ok ((some (K.openLoop loop), { K.draft d with loops := outer.map K.openLoop }), l'))
    rw [hd]
    exact .ok ⟨rfl, hmeets⟩

theorem pairs_forHeader (pos : Pos) (var : String) (start limit : Expr) (step : Option Expr) :
    K.Pairs n n' K.stmt
      (here >>= fun top => nextLoopId >>= fun id =>
        Build.openLoop (.for pos ⟨var, start, limit, step, top + 1, id⟩) >>= fun _ =>
        pure (.for pos ⟨var, start, limit, step, top + 1, id⟩))
      (here >>= fun top => nextLoopId >>= fun id =>
        Build.openLoop (.for (K.move pos) ⟨var, start.mapPos K.move, limit.mapPos K.move,
          step.map (Expr.mapPos K.move), top + 1, id⟩) >>= fun _ =>
        pure (.for (K.move pos) ⟨var, start.mapPos K.move, limit.mapPos K.move,
          step.map (Expr.mapPos K.move), top + 1, id⟩)) := by
  refine pairs_here.of_bind fun top => pairs_nextLoopId.of_bind fun id => ?_
  rw [Nat.add_right_comm]
  exact (pairs_openLoop (.for pos ⟨var, start, limit, step, top + 1, id⟩)).of_bind
    fun _ => .of_pure rfl

theorem pairs_forLoop (pos : Pos) : K.Pairs n n' K.stmt (forLoop n pos)
    (forLoop n' (K.move pos)) := by
  refine (pairs_ident _).of_bind fun found => (pairs_expect (by simp) _).of_bind fun _ => ?_
  refine pairs_expr.of_bind fun start => (pairs_expect (by simp) _).of_bind fun _ => ?_
  refine pairs_expr.of_bind fun limit => (pairs_accept (by simp)).of_bind fun b => ?_
  cases b with
  | true =>
    refine Pairs.of_bind (f := Option.map (Expr.mapPos K.move)) (pairs_expr.of_map fun _ => rfl)
      fun step => ?_
    exact pairs_forHeader pos found.2 start limit step
  | false => exact pairs_forHeader pos found.2 start limit none

theorem pairs_doLoop (pos : Pos) : K.Pairs n n' K.stmt (doLoop n pos)
    (doLoop n' (K.move pos)) := by
  refine pairs_guard.of_bind fun guard => pairs_here.of_bind fun top => ?_
  refine pairs_nextLoopId.of_bind fun id => ?_
  exact (pairs_openLoop (.do pos ⟨top, id⟩)).of_bind fun _ => .of_pure rfl

theorem pairs_nextNamed (pos : Pos) (named : Option String) :
    K.Pairs n n' K.stmt (nextNamed pos named) (nextNamed (K.move pos) named) := by
  refine pairs_takeLoop?.of_bind fun loop => ?_
  cases loop with
  | none => exact Builds.of_throw rfl
  | some loop =>
    cases loop with
    | «do» => exact Builds.of_throw rfl
    | «for» opening header =>
      dsimp only [Option.map_some, Coupling.openLoop, OpenLoop.relocated, ForHeader.relocated]
      split
      · exact Builds.of_throw rfl
      · exact (pairs_closeLoop header.exit).of_bind fun _ => .of_pure rfl

theorem pairs_nextLoop (pos : Pos) : K.Pairs n n' K.stmt (nextLoop pos)
    (nextLoop (K.move pos)) := by
  refine Builds.of_peekToken (pairs_nextNamed pos none) rfl fun lexeme _ d l l' hkeeps => ?_
  have hnone := pairs_nextNamed pos none d l l' hkeeps.meets
  cases htoken : lexeme.token with
  | ident name =>
    refine (builds_take (by simp [htoken])).of_bind (fun _ _ => ?_) d l l' hkeeps
    exact pairs_nextNamed pos (some name)
  | _ => exact hnone

theorem pairs_loopEnd (pos : Pos) : K.Pairs n n' K.stmt (loopEnd n pos)
    (loopEnd n' (K.move pos)) := by
  refine pairs_guard.of_bind fun guard => pairs_takeLoop?.of_bind fun loop => ?_
  cases loop with
  | none => exact Builds.of_throw rfl
  | some loop =>
    cases loop with
    | «for» => exact Builds.of_throw rfl
    | «do» opening header => exact (pairs_closeLoop header.exit).of_bind fun _ => .of_pure rfl

theorem pairs_breakLoop (pos : Pos) : K.Pairs n n' K.stmt (breakLoop pos)
    (breakLoop (K.move pos)) := by
  intro d l l' hmeets
  rw [breakLoop, breakLoop, Build.bind_of_ok rfl, Build.bind_of_ok rfl, loops_draft]
  cases d.loops with
  | nil => exact .error rfl
  | cons loop outer =>
    rw [List.map_cons]
    dsimp only
    rw [openLoop, loop.exit_relocated]
    exact .ok ⟨rfl, hmeets⟩

/-! ### Branches -/

theorem missingPos_of_held (lexeme : Lexeme) (c : Cursor) (hlead : lexeme.lead = false) :
    missingPos ⟨c, some lexeme, true⟩ = .ok (lexeme.pos, ⟨c, some lexeme, true⟩) := by
  rw [missingPos, Parse.bind_of_ok (peekOnLine_of_held rfl), Option.filter_some_pos (by simp [hlead])]
  rfl

/-- A jump without `goto` stands where its target does. -/
theorem builds_jump (hlead : lexeme.lead = false) :
    K.Builds (K.Keeps n n' lexeme) (jump n) (jump n')
      fun s s' l l' => s' = K.stmt s ∧ K.Meets n n' l l' := by
  intro d l l' hkeeps
  have hmissing : missingPos l = .ok (lexeme.pos, l) := by
    rw [hkeeps.holds.eq]
    exact missingPos_of_held _ _ hlead
  have hmissing' : missingPos l' = .ok (K.move lexeme.pos, l') := by
    rw [hkeeps.holds.eq']
    exact missingPos_of_held (lexeme.mapPos K.move) _ hlead
  rw [jump, jump, Build.bind_of_ok (Build.lift_of_ok hmissing),
    Build.bind_of_ok (Build.lift_of_ok hmissing')]
  refine pairs_target.of_bind (fun e => ?_) d l l' hkeeps.meets
  exact Pairs.of_pure rfl

section Branches

variable {statement statement' : Build (Option (Stmt LoopId))}
  (hstatement : K.Pairs n n' K.stmt (insisted statement) (insisted statement'))
include hstatement

theorem pairs_branch :
    K.Pairs n n' K.stmt (branch statement n) (branch statement' n') := by
  refine Builds.of_peekToken hstatement rfl fun lexeme hlead d l l' hkeeps => ?_
  have hstatement := hstatement d l l' hkeeps.meets
  cases lexeme.token with
  | number x => exact builds_jump hlead d l l' hkeeps
  | atSign => exact builds_jump hlead d l l' hkeeps
  | _ => exact hstatement

theorem pairs_branchOf (pos : Pos) (branching : Branching) : K.Pairs n n' K.stmt
    (branchOf statement n pos branching) (branchOf statement' n' (K.move pos) branching) := by
  cases branching with
  | statement => exact pairs_branch hstatement
  | goto => exact pairs_target.of_bind fun e => .of_pure rfl
  | gosub => exact pairs_target.of_bind fun e => .of_pure rfl

theorem pairs_branches (pos wordPos : Pos) (condition : Expr) (branching : Branching) :
    K.Pairs n n' K.stmt (branches statement n pos wordPos condition branching)
      (branches statement' n' (K.move pos) (K.move wordPos) (condition.mapPos K.move) branching) := by
  refine (pairs_branchOf hstatement wordPos branching).of_bind fun taken d l l' hmeets => ?_
  have halike := tracks_peek l l' hmeets.beside
  rw [lift_self, lift_self]
  generalize hr : peek l = r at halike
  generalize hr' : peek l' = r' at halike
  cases halike with
  | error h =>
    rw [Build.bind_of_error (Build.lift_of_error hr), Build.bind_of_error (Build.lift_of_error hr')]
    exact .error h
  | @ok _ found _ _ hpeeked =>
    rw [Build.bind_of_ok (Build.lift_of_ok hr), Build.bind_of_ok (Build.lift_of_ok hr')]
    have hsize := Nat.lt_of_le_of_lt (shrinks_peek _ _ _ hr) hmeets.size
    have hsize' := Nat.lt_of_le_of_lt (shrinks_peek _ _ _ hr') hmeets.size'
    cases hpeeked with
    | stop h =>
      have fresh := K.fresh
      generalize K.stop = found at fresh
      split
      · exact absurd rfl (fresh _ rfl).2
      · exact .ok ⟨rfl, h, hsize, hsize'⟩
    | @remark lexeme _ _ _ hrem fresh h =>
      -- the second source goes on with another line, which is not an `else`
      obtain ⟨token, pos', past, lead⟩ := lexeme
      obtain rfl : token = .word .rem := hrem
      dsimp only
      split
      · exact absurd rfl (fresh _ rfl).2
      · exact .ok ⟨rfl, h, hsize, hsize'⟩
    | @token lexeme _ _ h =>
      obtain ⟨token, pos', past, lead⟩ := lexeme
      cases token with
      | word w =>
        cases w with
        | «else» =>
          refine (builds_take (by simp)).of_bind (fun _ _ => ?_) d _ _ ⟨h, hsize, hsize'⟩
          exact (pairs_branchOf hstatement pos' branching).of_bind fun otherwise => .of_pure rfl
        | _ => exact .ok ⟨rfl, h.beside, hsize, hsize'⟩
      | _ => exact .ok ⟨rfl, h.beside, hsize, hsize'⟩

omit hstatement in
theorem pairs_condition : K.Pairs n n' (fun r => (r.1.mapPos K.move, r.2.1, K.move r.2.2))
    (condition n) (condition n') := by
  refine pairs_expr.of_bind fun condition =>
    Pairs.of_nextOnLine (fun lexeme _ => ?_) fun lexeme hword => ?_
  · obtain ⟨token, wordPos, past, lead⟩ := lexeme
    cases token with
    | word w =>
      cases w with
      | «then» => exact .of_pure rfl
      | goto => exact .of_pure rfl
      | gosub => exact .of_pure rfl
      | _ => exact fun _ _ _ _ => .error rfl
    | _ => exact fun _ _ _ _ => .error rfl
  · rw [hword]
    exact ⟨fun _ _ => ⟨_, rfl, rfl⟩, fun _ _ => ⟨_, rfl, rfl⟩⟩

theorem pairs_conditional (pos : Pos) : K.Pairs n n' K.stmt
    (conditional statement n pos) (conditional statement' n' (K.move pos)) :=
  pairs_condition.of_bind fun r => pairs_branches hstatement pos r.2.2 r.1 r.2.1

end Branches

theorem pairs_ofWord (pos : Pos) (word : Word) : K.Pairs n n' K.stmt
    (ofWord n pos word) (ofWord n' (K.move pos) word) := by
  cases word with
  | «let» => exact pairs_assign pos
  | dim => exact pairs_dim pos
  | map => exact (pairs_ident _).of_bind fun found => .of_pure rfl
  | read =>
    refine (pairs_targets n n' n n' (Nat.le_refl n) (Nat.le_refl n') (Nat.le_refl n)
      (Nat.le_refl n')).of_bind fun ts => .of_pure rfl
  | goto => exact pairs_target.of_bind fun e => .of_pure rfl
  | gosub => exact pairs_target.of_bind fun e => .of_pure rfl
  | on => exact pairs_onJump pos
  | «for» => exact pairs_forLoop pos
  | next => exact pairs_nextLoop pos
  | «do» => exact pairs_doLoop pos
  | loop => exact pairs_loopEnd pos
  | «break» => exact pairs_breakLoop pos
  | «return» => exact Pairs.of_pure rfl
  | stop => exact Pairs.of_pure rfl
  | finish => exact Pairs.of_pure rfl
  | _ => exact Builds.of_throw rfl

end Coupling

end LineBasic
