import LineBasic.Code.Parser
import LineBasic.Proofs.Readers

/-!
# Reading statements step by step

What the readers of statements do with the next token, and what a program does with each statement that
was read.
-/

namespace LineBasic

set_option autoImplicit false

theorem next_of_fill {l m : Lexer} {o : Option Lexeme} (h : l.fill = (.ok o, m)) :
    Parse.next l = .ok (o, { m with held := false }) := by
  simp [Parse.next, Parse.ofLexer, Lexer.next, h]

theorem next_of_fill_error {l m : Lexer} {e : Error} (h : l.fill = (.error e, m)) :
    Parse.next l = .error e := by
  simp [Parse.next, Parse.ofLexer, Lexer.next, h]

theorem fill_ofSource {source : String} {first : Option Lexeme} {c : Cursor}
    (h : (Cursor.ofSource source).scan = (.ok first, c)) :
    (Lexer.ofSource source).fill = (.ok first, ⟨c, first, true⟩) := by
  simp [Lexer.fill, Lexer.ofSource, h]

theorem Build.bind_of_ok {α β : Type} {x : Build α} {f : α → Build β} {d d' : Draft} {l l' : Lexer}
    {a : α} (h : x d l = .ok ((a, d'), l')) : (x >>= f) d l = f a d' l' :=
  Parse.bind_of_ok (f := fun p : α × Draft => f p.1 p.2) h

theorem Build.bind_of_error {α β : Type} {x : Build α} {f : α → Build β} {d : Draft} {l : Lexer}
    {e : Error} (h : x d l = .error e) : (x >>= f) d l = .error e :=
  Parse.bind_of_error (f := fun p : α × Draft => f p.1 p.2) h

theorem Build.bind_left {α β : Type} {x y : Build α} (f : α → Build β) {d d' : Draft} {l l' : Lexer}
    (h : x d l = y d' l') : (x >>= f) d l = (y >>= f) d' l' := by
  cases hy : y d' l' with
  | error e => rw [bind_of_error hy, bind_of_error (h.trans hy)]
  | ok r => rw [bind_of_ok hy, bind_of_ok (h.trans hy)]

theorem Build.lift_of_ok {α : Type} {x : Parse α} {d : Draft} {l l' : Lexer} {a : α}
    (h : x l = .ok (a, l')) : (liftM x : Build α) d l = .ok ((a, d), l') := by
  change (x >>= fun a => pure (a, d) : Parse (α × Draft)) l = _
  rw [Parse.bind_of_ok h]
  rfl

theorem Build.lift_of_error {α : Type} {x : Parse α} {d : Draft} {l : Lexer} {e : Error}
    (h : x l = .error e) : (liftM x : Build α) d l = .error e := by
  change (x >>= fun a => pure (a, d) : Parse (α × Draft)) l = _
  rw [Parse.bind_of_error h]

theorem Build.bind_eq_ok {α β : Type} {x : Build α} {f : α → Build β} {d : Draft} {l : Lexer}
    {r : (β × Draft) × Lexer} :
    (x >>= f) d l = .ok r ↔ ∃ a d' l', x d l = .ok ((a, d'), l') ∧ f a d' l' = .ok r := by
  have h : (x >>= f) d l = ((x d : Parse (α × Draft)) >>= fun p => f p.1 p.2) l := rfl
  rw [h, Parse.bind_eq_ok]
  constructor
  · rintro ⟨⟨a, d'⟩, l', hx, hf⟩
    exact ⟨a, d', l', hx, hf⟩
  · rintro ⟨a, d', l', hx, hf⟩
    exact ⟨(a, d'), l', hx, hf⟩

theorem Build.lift_eq_ok {α : Type} {x : Parse α} {d d' : Draft} {l l' : Lexer} {a : α}
    (h : (liftM x : Build α) d l = .ok ((a, d'), l')) : x l = .ok (a, l') ∧ d' = d := by
  have hlift : (liftM x : Build α) d l = (x >>= fun b => pure (b, d) : Parse (α × Draft)) l := rfl
  rw [hlift] at h
  obtain ⟨b, l₁, hx, hb⟩ := Parse.bind_eq_ok.mp h
  cases hb
  exact ⟨hx, rfl⟩

theorem Lexeme.isLabel_eq_false {lexeme : Lexeme} {following : Option Lexeme}
    (h : ∀ after ∈ following, lexeme.touches after = false) : lexeme.isLabel following = false := by
  cases following with
  | none => rfl
  | some after => simp [isLabel, h after rfl]

theorem Lexeme.token_of_isLabel {lexeme after : Lexeme} (h : lexeme.isLabel (some after) = true) :
    after.token = .colon := by
  simp only [isLabel, Option.any_some, Bool.and_eq_true, beq_iff_eq] at h
  exact h.1.2

namespace Build

theorem lift_self {α : Type} (x : Build α) : (liftM x : Build α) = x :=
  rfl

/-- What follows a token, with all labels entered in the draft. -/
abbrev following (n : Nat) (lexeme : Lexeme) : Build (Option (Stmt LoopId)) :=
  statementFrom (fun _ => addLabel) (statement n) (statement n) n lexeme

theorem statement_of_next {n : Nat} {d : Draft} {l m : Lexer} {lexeme : Lexeme}
    (h : Parse.next l = .ok (some lexeme, m)) :
    statement (n + 1) d l = following n lexeme d m :=
  bind_of_ok (lift_of_ok h)

theorem statement_of_end {n : Nat} {d : Draft} {l m : Lexer} (h : Parse.next l = .ok (none, m)) :
    statement (n + 1) d l = .ok ((none, d), m) :=
  bind_of_ok (lift_of_ok h)

theorem statement_of_error {n : Nat} {d : Draft} {l : Lexer} {e : Error}
    (h : Parse.next l = .error e) : statement (n + 1) d l = .error e :=
  bind_of_error (lift_of_error h)

/-- What follows a statement of a program. -/
def advance (n : Nat) : Option (Stmt LoopId) → Build Unit
  | none => pure ()
  | some s => do
    modifyThe Draft fun d => { d with statements := d.statements.push s }
    program n

theorem program_succ (n : Nat) : program (n + 1) = statement (n + 1) >>= advance n := by
  rw [program, programWith]
  congr 1

theorem assignedElement?_eq {n : Nat} {d : Draft} {l m : Lexer} {o : Option Lexeme}
    (hnext : Parse.next l = .ok (o, m)) :
    assignedElement? n d l = match Parse.selector n m with
      | .error _ => .ok ((none, d), l)
      | .ok (levels, lexer) => (accept (.operator .equal) >>= fun equal =>
          if equal then pure (some levels) else set l >>= fun _ => pure none :
            Build (Option Levels)) d lexer := by
  rw [assignedElement?, bind_of_ok rfl, bind_of_ok (lift_of_ok hnext),
    bind_of_ok rfl]
  simp only [StateT.run]
  cases Parse.selector n m with
  | error e => rfl
  | ok p => rfl

end Build

theorem Draft.finish_ok {d : Draft} {code : Code} (h : d.finish = .ok code) :
    d.loops = [] ∧ code.statements = d.statements.map (·.mapExit (d.exits.getD · 0)) := by
  unfold finish at h
  split at h
  · cases h
  · rename_i hloops
    cases h
    exact ⟨hloops, rfl⟩

theorem parse_ok {source : String} {code : Code} (h : parse source = .ok code) :
    ∃ d l, Build.program (source.length + 1) {} (Lexer.ofSource source) = .ok (((), d), l) ∧
      d.finish = .ok code := by
  unfold parse at h
  dsimp only at h
  cases hread : ((Build.program (source.length + 1)).run {}).run (Lexer.ofSource source) with
  | error e =>
    rw [hread] at h
    cases h
  | ok r =>
    obtain ⟨⟨_, d⟩, l⟩ := r
    rw [hread] at h
    change d.finish.mapError _ = _ at h
    cases hfinish : d.finish with
    | error e =>
      rw [hfinish] at h
      cases h
    | ok code' =>
      rw [hfinish] at h
      cases h
      exact ⟨d, l, hread, hfinish⟩

theorem parse_of_program {source : String} {code : Code} {d : Draft} {l : Lexer}
    (h : Build.program (source.length + 1) {} (Lexer.ofSource source) = .ok (((), d), l))
    (hfinish : d.finish = .ok code) : parse source = .ok code := by
  unfold parse
  dsimp only
  change Except.mapError _ (Except.bind (Build.program _ {} (Lexer.ofSource source)) _) = _
  rw [h]
  change d.finish.mapError _ = _
  rw [hfinish]
  rfl

theorem parse_of_failure {source : String} {e : Error}
    (h : Build.program (source.length + 1) {} (Lexer.ofSource source) = .error e) :
    parse source = .error (e.withSource source) := by
  unfold parse
  change Except.mapError _ (Except.bind (Build.program _ {} (Lexer.ofSource source)) _) = _
  rw [h]
  rfl

theorem parse_of_unclosed {source : String} {d : Draft} {l : Lexer} {loop : OpenLoop}
    {outer : List OpenLoop}
    (h : Build.program (source.length + 1) {} (Lexer.ofSource source) = .ok (((), d), l))
    (hloops : d.loops = loop :: outer) : parse source = .error (loop.unclosed.withSource source) := by
  unfold parse
  change Except.mapError _ (Except.bind (Build.program _ {} (Lexer.ofSource source)) _) = _
  rw [h]
  change d.finish.mapError _ = _
  rw [Draft.finish, hloops]
  rfl

end LineBasic
