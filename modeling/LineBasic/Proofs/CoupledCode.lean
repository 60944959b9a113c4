import LineBasic.Proofs.CoupledStatements

/-!
# Programs with the same tokens at other positions

Two sources with corresponding tokens are the same program but for the positions, or reading fails on
both with the same code. Where the first source ends the second one may go on: the second run has come
as far as the first one then, and is about to read a statement.
-/

namespace LineBasic

set_option autoImplicit false

namespace Coupling

open Build Parse

variable {K : Coupling} {n n' : Nat} {lexeme : Lexeme} {l l' : Lexer}

/-- A token in another line does not make a label of a name. -/
theorem Took.isLabel_fresh {found : Option Lexeme} {m' : Lexer} (htook : K.Took lexeme l l')
    (fresh : Fresh found) (hpeek : peek l' = .ok (found, m')) :
    (lexeme.mapPos K.move).isLabel found = false := by
  refine Lexeme.isLabel_eq_false fun next hnext => ?_
  obtain rfl := Option.mem_def.mp hnext
  refine htook.behind.apart next m'.cursor ?_ (fresh next rfl).1
  rw [htook.eq'] at hpeek
  unfold peek ofLexer Lexer.peek Lexer.fill at hpeek
  simp only [Bool.false_eq_true, if_false] at hpeek
  generalize l'.cursor.scan = r at hpeek
  obtain ⟨result, c⟩ := r
  cases result with
  | error e => cases hpeek
  | ok found =>
    cases hpeek
    rfl

theorem tracks_following (hrem : lexeme.token ≠ .word .rem) :
    Tracks (K.Took lexeme) peek peek fun found found' l l' =>
      (lexeme.mapPos K.move).isLabel found' = lexeme.isLabel found ∧ K.Beside l l' ∧
        (lexeme.isLabel found = true → ∃ after, K.Holds after l l' ∧ after.token = .colon) := by
  intro l l' htook
  have halike := tracks_peek l l' (htook.beside hrem)
  generalize hr : peek l = r at halike
  generalize hr' : peek l' = r' at halike
  cases halike with
  | error h => exact .error h
  | ok hpeeked =>
    refine .ok ?_
    cases hpeeked with
    | stop h => exact ⟨htook.isLabel_fresh K.fresh hr', h, fun hlabel => by cases hlabel⟩
    | @token after _ _ h =>
      refine ⟨?_, h.beside, fun hlabel => ⟨after, h, Lexeme.token_of_isLabel hlabel⟩⟩
      simp only [Lexeme.isLabel, Option.any_some, K.touches htook.behind.known h.behind.known]
      rfl
    | @remark after _ _ _ hword fresh h =>
      have hlabel : lexeme.isLabel (some after) = false := by
        rw [← Bool.not_eq_true]
        intro hlabel
        have hcolon := Lexeme.token_of_isLabel hlabel
        rw [hword] at hcolon
        cases hcolon
      refine ⟨by rw [hlabel, htook.isLabel_fresh fresh hr'], h, fun htrue => ?_⟩
      rw [hlabel] at htrue
      cases htrue

variable (K) in
/-- The second source where the first one has ended. -/
def Stopped (l' : Lexer) : Prop :=
  ∃ c c', K.Ended c c' ∧ l'.fill = (.ok K.stop, ⟨c', K.stop, true⟩)

theorem Stopped.statement_eq {l' : Lexer} (h : K.Stopped l') (hstop : K.stop = none) {j : Nat}
    (hsize : l'.size < j) (d : Draft) : ∃ m, statement j d l' = .ok ((none, d), m) := by
  obtain ⟨c, c', -, hfill⟩ := h
  rw [hstop] at hfill
  obtain ⟨j, rfl⟩ : ∃ i, j = i + 1 := ⟨j - 1, by omega⟩
  exact ⟨_, statement_of_end (next_of_fill hfill)⟩

variable (K) in
/-- What two readers of the next statement come to. Both find it, and it costs a token. Or the first
source has ended, and the second run is about to read a statement where the first one found none. -/
inductive Outcome (n n' : Nat) : Except Error ((Option (Stmt LoopId) × Draft) × Lexer) →
    Except Error ((Option (Stmt LoopId) × Draft) × Lexer) → Prop where
  | found {s : Stmt LoopId} {d : Draft} {l l' : Lexer} (h : K.Meets n n' l l') :
      Outcome n n' (.ok ((some s, d), l)) (.ok ((some (K.stmt s), K.draft d), l'))
  | ended {d : Draft} {l l' : Lexer} {j : Nat} (hj : j ≤ n' + 1) (size : l'.size < j)
      (stopped : K.Stopped l') : Outcome n n' (.ok ((none, d), l)) (statement j (K.draft d) l')
  | error {e e' : Error} (h : e.code = e'.code) : Outcome n n' (.error e) (.error e')
  | further {e : Error} {r' : Except Error ((Option (Stmt LoopId) × Draft) × Lexer)}
      (h : K.stop ≠ none) : Outcome n n' (.error e) r'

theorem Outcome.mono {m m' : Nat} {r r' : Except Error ((Option (Stmt LoopId) × Draft) × Lexer)}
    (h : K.Outcome n n' r r') (hn : n ≤ m) (hn' : n' ≤ m') : K.Outcome m m' r r' := by
  cases h with
  | found h => exact .found (h.mono hn hn')
  | ended hj size stopped => exact .ended (by omega) size stopped
  | error h => exact .error h
  | further h => exact .further h

theorem Outcome.of_pairs {x x' : Build (Stmt LoopId)} {d : Draft} (hx : K.Pairs n n' K.stmt x x')
    (hmeets : K.Meets n n' l l') :
    K.Outcome n n' ((some <$> x) d l) ((some <$> x') (K.draft d) l') := by
  have hbuilt := hx d l l' hmeets
  rw [map_eq_pure_bind, map_eq_pure_bind]
  generalize hr : x d l = r at hbuilt
  generalize hr' : x' (K.draft d) l' = r' at hbuilt
  cases hbuilt with
  | error h =>
    rw [Build.bind_of_error hr, Build.bind_of_error hr']
    exact .error h
  | further h =>
    rw [Build.bind_of_error hr]
    exact .further h
  | ok h =>
    obtain ⟨rfl, hmeets⟩ := h
    rw [Build.bind_of_ok hr, Build.bind_of_ok hr']
    exact .found hmeets

theorem Took.meets (h : K.Took lexeme l l') (hrem : lexeme.token ≠ .word .rem) (hsize : l.size < n)
    (hsize' : l'.size < n') : K.Meets n n' l l' :=
  ⟨h.beside hrem, hsize, hsize'⟩

section Statements

variable (h : ∀ d l l', K.Meets n n' l l' →
  K.Outcome n n' (statement n d l) (statement n' (K.draft d) l'))
include h

theorem pairs_insisted : K.Pairs n n' K.stmt (insisted (statement n)) (insisted (statement n')) := by
  intro d l l' hmeets
  have houtcome := h d l l' hmeets
  generalize hr : statement n d l = r at houtcome
  generalize hr' : statement n' (K.draft d) l' = r' at houtcome
  unfold insisted
  cases houtcome with
  | found h =>
    rw [Build.bind_of_ok hr, Build.bind_of_ok hr']
    exact .ok ⟨rfl, h⟩
  | error h =>
    rw [Build.bind_of_error hr, Build.bind_of_error hr']
    exact .error h
  | further h =>
    rw [Build.bind_of_error hr]
    exact .further h
  | @ended d₁ _ _ j _ size stopped =>
    rw [Build.bind_of_ok hr]
    by_cases hstop : K.stop = none
    · obtain ⟨m, hend⟩ := stopped.statement_eq hstop size (K.draft d₁)
      rw [Build.bind_of_ok (hr'.trans hend)]
      exact .error rfl
    · exact .further hstop

theorem outcome_label (name : String) (d : Draft) (hmeets : K.Meets n n' l l') :
    K.Outcome n n' ((addLabel name >>= fun _ => statement n) d l)
      ((addLabel name >>= fun _ => statement n') (K.draft d) l') := by
  have hmore := h { d with labels := d.labels.push (name, d.here) } l l' hmeets
  rw [draft, ← Draft.addLabel_behind] at hmore
  exact hmore

theorem outcome_data (d : Draft) (hmeets : K.Meets n n' l l') :
    K.Outcome n n' ((data n >>= fun _ => statement n) d l)
      ((data n' >>= fun _ => statement n') (K.draft d) l') := by
  have hbuilt := pairs_data n n' d l l' hmeets
  generalize hr : data n d l = r at hbuilt
  generalize hr' : data n' (K.draft d) l' = r' at hbuilt
  cases hbuilt with
  | error h =>
    rw [Build.bind_of_error hr, Build.bind_of_error hr']
    exact .error h
  | further h =>
    rw [Build.bind_of_error hr]
    exact .further h
  | ok hq =>
    rw [Build.bind_of_ok hr, Build.bind_of_ok hr']
    exact h _ _ _ hq.2

theorem outcome_name (name : String) (pos : Pos) (past : Nat) (lead : Bool) (d : Draft)
    (htook : K.Took ⟨.ident name, pos, past, lead⟩ l l') (hsize : l.size < n) (hsize' : l'.size < n') :
    K.Outcome n n' (following n ⟨.ident name, pos, past, lead⟩ d l)
      (following n' ⟨.ident name, K.move pos, past, lead⟩ (K.draft d) l') := by
  have halike := tracks_following (by simp) l l' htook
  dsimp only [following, statementFrom, lift_self]
  generalize hr : peek l = r at halike
  generalize hr' : peek l' = r' at halike
  cases halike with
  | error h =>
    rw [Build.bind_of_error (Build.lift_of_error hr), Build.bind_of_error (Build.lift_of_error hr')]
    exact .error h
  | ok hfollowing =>
    obtain ⟨hlabel, hbeside, hcolon⟩ := hfollowing
    rw [Build.bind_of_ok (Build.lift_of_ok hr), Build.bind_of_ok (Build.lift_of_ok hr')]
    dsimp only [Lexeme.mapPos] at hlabel
    rw [hlabel]
    have hsize := Nat.lt_of_le_of_lt (shrinks_peek _ _ _ hr) hsize
    have hsize' := Nat.lt_of_le_of_lt (shrinks_peek _ _ _ hr') hsize'
    split
    · rename_i htrue
      obtain ⟨after, hholds, hafter⟩ := hcolon htrue
      obtain ⟨m, m', hn, hn', hmeets⟩ := Keeps.next ⟨hholds, hsize, hsize'⟩ (by simp [hafter])
      rw [Build.bind_of_ok (Build.lift_of_ok hn), Build.bind_of_ok (Build.lift_of_ok hn')]
      exact outcome_label h name d hmeets
    · exact .of_pairs (pairs_assignmentOrCommand pos name) ⟨hbeside, hsize, hsize'⟩

theorem outcome_following (lexeme : Lexeme) (d : Draft) (htook : K.Took lexeme l l')
    (hsize : l.size < n) (hsize' : l'.size < n') :
    K.Outcome n n' (following n lexeme d l)
      (following n' (lexeme.mapPos K.move) (K.draft d) l') := by
  obtain ⟨token, pos, past, lead⟩ := lexeme
  cases token with
  | colon => exact h d l l' (htook.meets (by simp) hsize hsize')
  | number x => exact outcome_label h _ d (htook.meets (by simp) hsize hsize')
  | ident name => exact outcome_name h name pos past lead d htook hsize hsize'
  | word w =>
    by_cases hrem : w = .rem
    · subst hrem
      exact h d _ _ ⟨htook.skipLine rfl, Nat.lt_of_le_of_lt l.skipLine_size_le hsize,
        Nat.lt_of_le_of_lt l'.skipLine_size_le hsize'⟩
    · have hmeets := htook.meets (by simpa using hrem) hsize hsize'
      have hword := Outcome.of_pairs (d := d) (pairs_ofWord pos w) hmeets
      cases w with
      | rem => exact absurd rfl hrem
      | data => exact outcome_data h d hmeets
      | «if» => exact .of_pairs (pairs_conditional (pairs_insisted h) pos) hmeets
      | _ => exact hword
  | _ => exact .error rfl

end Statements

/-- Readers of statements do the same on sources side by side. -/
theorem outcome_statement (n : Nat) : ∀ n' d l l', K.Meets n n' l l' →
    K.Outcome (n - 1) (n' - 1) (statement n d l) (statement n' (K.draft d) l') := by
  induction n with
  | zero => exact fun _ _ _ _ h => absurd h.size (Nat.not_lt_zero _)
  | succ n ih =>
    intro n' d l l' hmeets
    obtain ⟨_, n', -, rfl⟩ := hmeets.ne_zero
    have hfilled := hmeets.beside
    have hl := hmeets.size
    have hl' := hmeets.size'
    rw [Beside] at hfilled
    generalize hfill : l.fill = r at hfilled
    generalize hfill' : l'.fill = r' at hfilled
    cases hfilled with
    | error h =>
      rw [statement_of_error (next_of_fill_error hfill), statement_of_error (next_of_fill_error hfill')]
      exact .error h
    | @stop c c' ended =>
      rw [statement_of_end (next_of_fill hfill)]
      exact .ended (Nat.le_refl _) hl' ⟨c, c', ended, hfill'⟩
    | @token lexeme c c' behind =>
      have hle := (next_ok (next_of_fill hfill)).2
      have hle' := (next_ok (next_of_fill hfill')).2
      simp only [Option.isSome_some, if_true] at hle hle'
      rw [statement_of_next (next_of_fill hfill), statement_of_next (next_of_fill hfill')]
      refine outcome_following (fun d l l' hmeets => ?_) lexeme d ⟨behind, rfl, rfl⟩ ?_ ?_
      · exact (ih n' d l l' hmeets).mono (Nat.sub_le ..) (Nat.sub_le ..)
      · exact Nat.lt_of_succ_lt_succ (Nat.lt_of_le_of_lt hle hl)
      · exact Nat.lt_of_succ_lt_succ (Nat.lt_of_le_of_lt hle' hl')
    | @remark lexeme c c' found hrem h fresh =>
      -- the remark is all that the first source has in front of what the second one shows
      have hle := (next_ok (next_of_fill hfill)).2
      simp only [Option.isSome_some, if_true] at hle
      have hskip : following n lexeme d ⟨c, some lexeme, false⟩ =
          statement n d ⟨c.skipLine, some lexeme, false⟩ := by
        rw [following, statementFrom, hrem]
        rfl
      rw [statement_of_next (next_of_fill hfill), hskip]
      refine (ih (n' + 1) d _ _ ⟨?_, ?_, hl'⟩).mono (Nat.sub_le ..) (Nat.le_refl _)
      · rw [Beside, hfill']
        simp only [Lexer.fill, Bool.false_eq_true, if_false]
        generalize c.skipLine.scan = r at h
        generalize hr' : ((.ok found, c') : Except Error (Option Lexeme) × Cursor) = r' at h
        cases h with
        | token behind =>
          cases hr'
          exact .token behind
        | stop ended =>
          cases hr'
          exact .stop ended
      · exact Nat.lt_of_le_of_lt c.skipLine_length_le
          (Nat.lt_of_succ_lt_succ (Nat.lt_of_le_of_lt hle hl))

variable (K) in
/-- What two runs of a program come to. The first one has come to the end of its source; the second one
has added the same code to its draft and is about to read a statement. -/
inductive Ran : Except Error ((Unit × Draft) × Lexer) → Except Error ((Unit × Draft) × Lexer) → Prop
    where
  | ended {d : Draft} {l l' : Lexer} {j q : Nat} (hj : j ≤ q + 1) (size : l'.size < j)
      (stopped : K.Stopped l') : Ran (.ok (((), d), l)) ((statement j >>= advance q) (K.draft d) l')
  | error {e e' : Error} (h : e.code = e'.code) : Ran (.error e) (.error e')
  | further {e : Error} {r' : Except Error ((Unit × Draft) × Lexer)} (h : K.stop ≠ none) :
      Ran (.error e) r'

theorem ran_program (p : Nat) : ∀ n n' p' d l l', n ≤ p + 1 → n' ≤ p' + 1 → K.Meets n n' l l' →
    K.Ran ((statement n >>= advance p) d l) ((statement n' >>= advance p') (K.draft d) l') := by
  induction p using Nat.strongRecOn with
  | ind p ih =>
    intro n n' p' d l l' hn hn' hmeets
    have houtcome := outcome_statement n n' d l l' hmeets
    have hsize' := hmeets.size'
    generalize hr : statement n d l = r at houtcome
    generalize hr' : statement n' (K.draft d) l' = r' at houtcome
    cases houtcome with
    | error h =>
      rw [Build.bind_of_error hr, Build.bind_of_error hr']
      exact .error h
    | further h =>
      rw [Build.bind_of_error hr]
      exact .further h
    | ended hj size stopped =>
      rw [Build.bind_of_ok hr, Build.bind_left (advance p') hr']
      exact .ended (by omega) size stopped
    | @found s d₁ l₁ l₁' hmeets₁ =>
      have hpush := K.base.push_behind K.move d₁ s
      have hmeets₁ := hmeets₁.mono (by omega : n - 1 ≤ p) (by omega : n' - 1 ≤ p')
      obtain ⟨q, q', rfl, rfl⟩ := hmeets₁.ne_zero
      have hmore := ih q (Nat.lt_succ_self q) (q + 1) (q' + 1) q'
        { d₁ with statements := d₁.statements.push s } l₁ l₁' (Nat.le_refl _) (Nat.le_refl _) hmeets₁
      rw [Build.bind_of_ok hr, Build.bind_of_ok hr']
      rw [← program_succ, ← program_succ, draft, ← hpush] at hmore
      exact hmore

theorem Ran.both {r r' : Except Error ((Unit × Draft) × Lexer)} (h : K.Ran r r')
    (hstop : K.stop = none) :
    (∃ d l m, r = .ok (((), d), l) ∧ r' = .ok (((), K.draft d), m) ∧ ∃ c c', K.Ended c c') ∨
      ∃ e e', r = .error e ∧ r' = .error e' ∧ e.code = e'.code := by
  cases h with
  | error h => exact .inr ⟨_, _, rfl, rfl, h⟩
  | further h => exact absurd hstop h
  | @ended d l l' j q hj size stopped =>
    obtain ⟨m, hend⟩ := stopped.statement_eq hstop size (K.draft d)
    obtain ⟨c, c', hended, -⟩ := stopped
    rw [Build.bind_of_ok hend]
    exact .inl ⟨d, l, m, rfl, rfl, c, c', hended⟩

theorem ran_source {source source' : String}
    (h : K.Beside (Lexer.ofSource source) (Lexer.ofSource source')) {n n' : Nat}
    (hn : source.length < n) (hn' : source'.length < n') :
    K.Ran (program n {} (Lexer.ofSource source)) (program n' K.base (Lexer.ofSource source')) := by
  have hsize := size_ofSource source
  have hsize' := size_ofSource source'
  obtain ⟨n, rfl⟩ : ∃ i, n = i + 1 := ⟨n - 1, by omega⟩
  obtain ⟨n', rfl⟩ : ∃ i, n' = i + 1 := ⟨n' - 1, by omega⟩
  have hran := @ran_program K n (n + 1) (n' + 1) n' {} _ _ (Nat.le_refl _) (Nat.le_refl _)
    ⟨h, by omega, by omega⟩
  rwa [draft, Draft.behind_empty, ← program_succ, ← program_succ] at hran

/-- Sources with corresponding tokens are the same program but for the positions, or reading fails on
both with the same code. -/
theorem parse_coupled {source source' : String}
    (h : K.Beside (Lexer.ofSource source) (Lexer.ofSource source')) (hstop : K.stop = none)
    (hbase : K.base = {}) :
    (∃ code, parse source = .ok code ∧ parse source' = .ok (code.mapPos K.move) ∧
      ∃ c c', K.Ended c c') ∨
    ∃ e e', parse source = .error e ∧ parse source' = .error e' ∧ e.code = e'.code := by
  have hran := ran_source h (Nat.lt_succ_self _) (Nat.lt_succ_self _)
  rw [hbase] at hran
  rcases hran.both hstop with ⟨d, l, m, hr, hr', hended⟩ | ⟨e, e', hr, hr', hcode⟩
  · rw [draft, hbase] at hr'
    cases hloops : d.loops with
    | nil =>
      cases hfinish : d.finish with
      | error e =>
        rw [Draft.finish, hloops] at hfinish
        cases hfinish
      | ok code =>
        exact .inl ⟨code, parse_of_program hr hfinish,
          parse_of_program hr' (Draft.finish_empty_behind K.move hloops hfinish), hended⟩
    | cons loop outer =>
      have hloops' : (Draft.behind K.move {} d).loops =
          loop.relocated K.move 0 0 :: outer.map (OpenLoop.relocated K.move 0 0) := by
        rw [Draft.empty_behind, hloops]
        rfl
      refine .inr ⟨_, _, parse_of_unclosed hr hloops, parse_of_unclosed hr' hloops', ?_⟩
      rw [Error.code_withSource, Error.code_withSource, OpenLoop.code_unclosed_relocated]
  · refine .inr ⟨_, _, parse_of_failure hr, parse_of_failure hr', ?_⟩
    rw [Error.code_withSource, Error.code_withSource, hcode]

end Coupling

end LineBasic
