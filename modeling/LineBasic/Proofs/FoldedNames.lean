import LineBasic.Machine.Session
import LineBasic.Proofs.Environments
import LineBasic.Proofs.Onward
import LineBasic.Proofs.ReadBack

/-!
# One name for hosts and programs

The lexer folds a name character by character. The host's names and the texts that jumps go to are
folded as a whole, and there a capital sigma at the end of a word becomes another letter than
elsewhere. Apart from this letter the two ways agree. Main statement: for every text that the lexer reads
as a name they agree just when no capital sigma ends a word in it, and if so, the text names the same
variable, function, command and label for the host and in a program.
-/

namespace LineBasic

set_option autoImplicit false

open Parse

namespace Text

/-- Behind the characters `before`, which come in reverse, a capital sigma ends a word: a letter is in
front of it and none behind, leaving marks without case aside. -/
def EndsWordInSigma (before cs : List Char) : Prop :=
  ∃ front after, cs = front ++ 'Σ' :: after ∧ meetsCased (front.reverse ++ before) = true ∧
    meetsCased after = false

theorem endsWordInSigma_cons {before cs : List Char} {c : Char} :
    EndsWordInSigma before (c :: cs) ↔
      (c = 'Σ' ∧ meetsCased before = true ∧ meetsCased cs = false) ∨
        EndsWordInSigma (c :: before) cs := by
  constructor
  · rintro ⟨front, after, hsplit, hbefore, hafter⟩
    cases front with
    | nil =>
      obtain ⟨rfl, rfl⟩ := List.cons.inj hsplit
      exact .inl ⟨rfl, hbefore, hafter⟩
    | cons d front =>
      obtain ⟨rfl, rfl⟩ := List.cons.inj hsplit
      rw [List.reverse_cons, List.append_assoc] at hbefore
      exact .inr ⟨front, after, rfl, hbefore, hafter⟩
  · rintro (⟨rfl, hbefore, hafter⟩ | ⟨front, after, rfl, hbefore, hafter⟩)
    · exact ⟨[], cs, rfl, hbefore, hafter⟩
    · refine ⟨c :: front, after, rfl, ?_, hafter⟩
      rwa [List.reverse_cons, List.append_assoc]

theorem lowerCase_sigma : lowerCase 'Σ' = ['σ'] := by
  decide +kernel

/-- The rest of a text folds alike both ways unless a sigma in it ends a word. -/
theorem foldAfter_eq_foldChars_iff (before cs : List Char) :
    foldAfter before cs = foldChars cs ↔ ¬EndsWordInSigma before cs := by
  induction cs generalizing before with
  | nil => simp [foldAfter, foldChars, EndsWordInSigma]
  | cons c cs ih =>
    rw [endsWordInSigma_cons, not_or, ← ih, foldAfter, foldChars, List.flatMap_cons, ← foldChars]
    by_cases hsigma : c = 'Σ'
    · subst hsigma
      rw [if_pos rfl, lowerCase_sigma]
      cases hends : meetsCased before && !meetsCased cs <;> simp_all
    · rw [if_neg hsigma, List.append_cancel_left_eq]
      simp [hsigma]

theorem fold_eq_ofList_iff (s : String) :
    fold s = String.ofList (foldChars s.toList) ↔ ¬EndsWordInSigma [] s.toList := by
  rw [fold, String.ofList_inj, foldAfter_eq_foldChars_iff]

end Text

/-! ### Texts that the lexer reads as names -/

theorem Cursor.rest_skipFrom_of_pos {cs : List Char} {pos : Pos} {lead : Bool}
    (h : (skipFrom .code cs pos lead).pos = pos) : (skipFrom .code cs pos lead).rest = cs := by
  have hmoved {gap : Gap} {ds : List Char} {p : Pos} {b : Bool} (hp : pos < p) :
      (skipFrom gap ds p b).pos ≠ pos := by
    intro heq
    have hlt := Pos.lt_of_le_of_lt (heq ▸ le_skipFrom_pos gap ds p b) hp
    exact Pos.lt_asymm hlt hlt
  revert h
  fun_cases skipFrom .code cs pos lead with
  | case1 => exact fun _ => rfl
  | case2 cs => exact fun h => absurd h (hmoved (.inl (Nat.lt_succ_self _)))
  | case3 c cs hcrlf hc => exact fun h => absurd h (hmoved (.inl (Nat.lt_succ_self _)))
  | case4 c cs hcrlf hc next hstep =>
    exact fun h => absurd h (hmoved (.inr ⟨rfl, Nat.lt_succ_self _⟩))
  | case5 c cs hcrlf hc hstep => exact fun _ => rfl

theorem Token.ofChar?_ne_ident (c : Char) (name : String) : Token.ofChar? c ≠ some (.ident name) := by
  unfold Token.ofChar?
  split <;> nofun

namespace Cursor

theorem readNumber_ne_ident (c : Char) (cs : List Char) (name : String) :
    (readNumber c cs).result ≠ .ok (.ident name) := by
  have hdecimal (ds : List Char) : (readDecimal ds).result ≠ .ok (.ident name) := by
    rw [readDecimal_eq]
    dsimp only
    split <;> nofun
  have hhex (ds : List Char) : (readHex ds).result ≠ .ok (.ident name) := by
    unfold readHex
    dsimp only
    split <;> nofun
  unfold readNumber
  split
  · exact hhex _
  · exact hhex _
  · split
    · exact hdecimal _
    · split <;> nofun
  · nofun
  · exact hdecimal _

theorem readWord_of_ident {c : Char} {cs : List Char} {name : String}
    (h : (readToken c cs).result = .ok (.ident name)) :
    readToken c cs = readWord (c :: cs) ∧ startsNumber (c :: cs) = false ∧
      Token.ofChar? c = none := by
  unfold readToken at h ⊢
  split at h
  · unfold readString at h
    dsimp only at h
    split at h <;> cases h
  · rename_i hquote
    split at h
    · exact absurd h (readNumber_ne_ident _ _ _)
    · rename_i hnumber
      split at h
      · rename_i single hsingle
        rw [readSymbol_eq] at h
        repeat' split at h
        all_goals cases h
        exact absurd hsingle (Token.ofChar?_ne_ident _ _)
      · rename_i hsymbol
        rw [if_neg hquote, if_neg hnumber, hsymbol]
        exact ⟨rfl, by simpa [startsNumber] using hnumber, rfl⟩

end Cursor

theorem nameText_of_lex {w name : String}
    (h : (lex w).lexemes = [⟨.ident name, ⟨1, 1⟩, w.length + 1, true⟩]) :
    NameText w.toList name := by
  obtain ⟨c, hscan⟩ : ∃ c, (Cursor.ofSource w).scan =
      (.ok (some ⟨.ident name, ⟨1, 1⟩, w.length + 1, true⟩), c) := by
    rw [lex, Lexer.collect, Lexer.next, Lexer.fill] at h
    rcases hscan : (Cursor.ofSource w).scan with ⟨e | _ | lexeme, c⟩
    all_goals simp only [Lexer.ofSource, hscan] at h
    · cases h
    · cases h
    · obtain ⟨rfl, -⟩ := List.cons.inj h
      exact ⟨c, rfl⟩
  obtain ⟨ch, cs, hrest, hread, hpos, -, -⟩ := Cursor.scan_of_token hscan
  have hused : (Cursor.readToken ch cs).used = w.length := by
    have hpast := (Cursor.scan_eq _).symm.trans hscan
    rw [Cursor.scanAt_of_ok hrest hread, ← hpos] at hpast
    have hcol : 1 + (Cursor.readToken ch cs).used = w.length + 1 :=
      congrArg Lexeme.past (Option.some.inj (Except.ok.inj (Prod.mk.inj hpast).1))
    omega
  have hsource : w.toList = ch :: cs := by
    rw [← hrest]
    exact (Cursor.rest_skipFrom_of_pos hpos.symm).symm
  obtain ⟨hword, hstart, -⟩ := Cursor.readWord_of_ident hread
  rw [hword, Cursor.readWord, ← hsource] at hused hread
  rw [← hsource] at hstart
  have hname : w.toList.takeWhile isNameChar = w.toList :=
    (List.takeWhile_prefix isNameChar).eq_of_length (hused.trans String.length_toList.symm)
  rw [hname] at hread
  have hident : Token.ofWord (String.ofList (Text.foldChars w.toList)) = .ident name :=
    Except.ok.inj hread
  have hfolded : String.ofList (Text.foldChars w.toList) = name := by
    rcases Token.ofWord_cases (String.ofList (Text.foldChars w.toList)) with
      ⟨word, hother⟩ | ⟨op, hother⟩ | hsame
    · cases hother.symm.trans hident
    · cases hother.symm.trans hident
    · exact Token.ident.inj (hsame.symm.trans hident)
  refine ⟨hsource ▸ List.cons_ne_nil ch cs, ?_, hstart, hfolded, hfolded ▸ hident⟩
  rw [← hname]
  exact List.all_eq_true.mp List.all_takeWhile

/-! ### Programs with a name in them -/

namespace Expr

theorem eq_var_of_bare {e : Expr} {p : Pos} {name : String} (h : e.bare = (var p name).bare) :
    ∃ q, e = var q name := by
  cases e with
  | var q other =>
    obtain ⟨-, rfl⟩ := var.inj h
    exact ⟨q, rfl⟩
  | _ => cases h

theorem eq_select_of_bare {e : Expr} {p : Pos} {name : String} {es : List Expr}
    (h : e.bare = (select p name es []).bare) :
    ∃ q es', e = select q name es' [] ∧ bareList es' = bareList es := by
  cases e with
  | select q other first more =>
    obtain ⟨-, rfl, hfirst, hmore⟩ := select.inj h
    cases more with
    | nil => exact ⟨q, first, rfl, hfirst⟩
    | cons level more => cases hmore
  | _ => cases h

theorem legible_call (p : Pos) {name : String} (hname : ProperName name) {es : List Expr}
    (h : ∀ e ∈ es, e.Legible) : (select p name es []).Legible := by
  cases es with
  | nil => exact .call p hname
  | cons e es =>
    exact .select p hname (List.forall_mem_singleton.mpr (List.cons_ne_nil _ _))
      (List.forall_mem_singleton.mpr h)

end Expr

namespace NameText

variable {w name : String}

theorem parse_value (h : NameText w.toList name) :
    ∃ p, parse ("x = " ++ w) = .ok ⟨#[.assign ⟨1, 1⟩ "x" (.var p name)], [], []⟩ := by
  have hspells : Spells (w.toList ++ []) [.ident name] := .name h (by simp [Ends]) .nil
  rw [List.append_nil] at hspells
  obtain ⟨e, hparse, hbare⟩ :=
    parse_assignment_of_spells nameText_x (.var ⟨0, 0⟩ h.properName) hspells
  obtain ⟨p, rfl⟩ := Expr.eq_var_of_bare hbare
  exact ⟨p, hparse⟩

theorem parse_call (h : NameText w.toList name) {es : List Expr} (hes : ∀ e ∈ es, e.Legible) :
    ∃ p es', parse ("x = " ++ (w ++ "(" ++ Expr.displayList es ++ ")")) =
        .ok ⟨#[.assign ⟨1, 1⟩ "x" (.select p name es' [])], [], []⟩ ∧
      Expr.bareList es' = Expr.bareList es := by
  have hclose : Spells [')'] [.rightParen] := .symbol ')' rfl nofun .nil
  have hargs := Expr.spells_list (fun e he => (hes e he).spelled) (.cons rfl _) hclose
  have hspells := Spells.name h (.cons rfl _) (.symbol '(' rfl nofun hargs)
  have htext : (w ++ "(" ++ Expr.displayList es ++ ")").toList =
      w.toList ++ '(' :: ((Expr.displayList es).toList ++ [')']) := by
    simp
  rw [← htext] at hspells
  obtain ⟨e, hparse, hbare⟩ := parse_assignment_of_spells nameText_x
    (Expr.legible_call ⟨0, 0⟩ h.properName hes) hspells
  obtain ⟨p, es', rfl, hes'⟩ := Expr.eq_select_of_bare hbare
  exact ⟨p, es', hparse, hes'⟩

theorem exists_length (h : NameText w.toList name) : ∃ n, w.length = n + 1 := by
  obtain ⟨c, cs, hcs⟩ := List.exists_cons_of_ne_nil h.nonempty
  exact ⟨cs.length, by rw [← String.length_toList, hcs, List.length_cons]⟩

theorem parse_alone (h : NameText w.toList name) :
    parse w = .ok ⟨#[.command ⟨1, 1⟩ name none (Build.literalCommands.contains name)], [], []⟩ := by
  obtain ⟨n, hlength⟩ := h.exists_length
  have hends : Ends [] := by simp [Ends]
  have hscan := h.scan hends ⟨1, 1⟩ true
  rw [List.append_nil] at hscan
  refine parse_of_statement (s := .command ⟨1, 1⟩ name none (Build.literalCommands.contains name))
    (l := ⟨⟨[], ⟨1, 1 + w.toList.length⟩, false⟩, none, false⟩) hlength ?_ ⟨_, rfl⟩
  rw [Build.statement_of_next (next_of_fill (fill_ofSource hscan))]
  rfl

theorem parse_label (h : NameText w.toList name) :
    parse (w ++ ":") = .ok ⟨#[], [(name, 0)], []⟩ := by
  have hsource : (w ++ ":").toList = w.toList ++ [':'] := by simp
  obtain ⟨n, hlength⟩ := h.exists_length
  have hfuel : (w ++ ":").length = n + 1 + 1 := by rw [String.length_append, hlength]; rfl
  obtain ⟨k, hscan⟩ : ∃ k, (Cursor.ofSource (w ++ ":")).scan =
      (.ok (some ⟨.ident name, ⟨1, 1⟩, 1 + k, true⟩), ⟨[':'], ⟨1, 1 + k⟩, false⟩) := by
    rw [Cursor.ofSource, hsource]
    exact ⟨_, h.scan (.cons rfl []) ⟨1, 1⟩ true⟩
  have hlabel : Lexeme.isLabel ⟨.ident name, ⟨1, 1⟩, 1 + k, true⟩
      (some ⟨.colon, ⟨1, 1 + k⟩, 1 + k + 1, false⟩) = true := by
    simp [Lexeme.isLabel, Lexeme.touches]
  have hstatement : Build.statement (n + 1 + 1 + 1) {} (Lexer.ofSource (w ++ ":")) =
      .ok ((none, { labels := #[(name, 0)] }), ⟨⟨[], ⟨1, 1 + k + 1⟩, false⟩, none, false⟩) := by
    rw [Build.statement_of_next (next_of_fill (fill_ofSource hscan)), Build.following,
      Build.statementFrom]
    dsimp only [Build.lift_self]
    rw [Build.bind_of_ok (Build.lift_of_ok (x := Parse.peek) (a := some
      ⟨.colon, ⟨1, 1 + k⟩, 1 + k + 1, false⟩) rfl), if_pos hlabel]
    rfl
  have hprogram : Build.program (n + 1 + 1 + 1) {} (Lexer.ofSource (w ++ ":")) =
      .ok (((), { labels := #[(name, 0)] }), ⟨⟨[], ⟨1, 1 + k + 1⟩, false⟩, none, false⟩) := by
    rw [Build.program_succ, Build.bind_of_ok hstatement]
    rfl
  rw [← hfuel] at hprogram
  exact parse_of_program hprogram (by simp [Draft.finish])

end NameText

/-! ### The machine under a name -/

namespace Machine

variable {w name : String} (hfold : Text.fold w = name)
include hfold

theorem eval_stored (p : Pos) {m : Machine} (hnames : m.literalNames = false) (v : Value) :
    (Action.eval (.var p name)).run (m.store w v) = (.ok v, m.store w v) := by
  have hfetch : (m.store w v).scope.fetch name = some v := by
    simp [store, hfold, Scope.store, Scope.fetch]
  have hstored : (m.store w v).literalNames = false := hnames
  rw [Action.run_eval_var p name hstored, hfetch]

theorem fetch_assigned {e : Expr} {m m' : Machine} {v : Value}
    (h : (Action.eval e).run m = (.ok v, m')) (p : Pos) :
    ∃ after, (Action.exec (.assign p name e)).run m = (.ok (), after) ∧ after.fetch w = some v := by
  refine ⟨{ m' with scope := m'.scope.store name v }, ?_, ?_⟩
  · rw [Action.exec, Action.run_bind, h]
    rfl
  · simp [fetch, hfold, Scope.store, Scope.fetch]

theorem eval_defined (m : Machine) (f : Function)
    (hfree : (m.scope.fetch name).filter Value.isContainer = none) (p : Pos) (es : List Expr) :
    (Action.eval (.select p name es [])).run (m.defineFunction w f) =
      (do
        let args ← Action.evalAll es
        Action.located p (Function.call f.action args) : Action Value).run
          (m.defineFunction w f) := by
  have hfree' : ((m.defineFunction w f).scope.fetch name).filter Value.isContainer = none := hfree
  have hfound : (m.defineFunction w f).functions[name]? = some f := by
    simp [defineFunction, hfold]
  rw [Action.eval, Action.run_bind, Action.run_get]
  dsimp only
  rw [hfree']
  dsimp only
  rw [hfound]
  rfl

theorem exec_defined (m : Machine) (c : Command) (p : Pos) (args : Option Expr) (literal : Bool) :
    (Action.exec (.command p name args literal)).run (m.defineCommand w c) =
      (do
        let vs ← Action.naming literal (Action.evalArgs args)
        Action.located p (Action.perform c.action vs) : Action Unit).run
          (m.defineCommand w c) := by
  have hfound : (m.defineCommand w c).commands[name]? = some c := by
    simp [defineCommand, hfold]
  rw [Action.exec, Action.command, Action.run_bind, Action.run_get]
  dsimp only
  rw [hfound]

theorem goto_text {e : Expr} {m m' : Machine} {frame : Frame} (hnames : m.literalNames = false)
    (h : (Action.eval e).run m = (.ok (.text w), m')) (hlabel : m.program.label? name = some frame)
    (p : Pos) :
    (Action.exec (.goto p e)).run m =
      (.ok (), { m' with code := some frame.block, pc := frame.addr }) := by
  have hprogram : m'.program = m.program := by
    rw [Action.eval_eq, Action.run_evaluate] at h
    rw [← (Prod.mk.inj h).2]
  have hlabelOf : (Action.labelOf e).run m = (.ok name, m') := by
    cases e with
    | var q n =>
      have hbound : m.scope.contains n = true := by
        rw [Action.run_eval_var q n hnames] at h
        cases hfetch : m.scope.fetch n with
        | some v => rw [Scope.contains, hfetch, Option.isSome_some]
        | none =>
          rw [hfetch] at h
          cases h
      rw [Action.labelOf, Action.run_bind, Action.run_get]
      dsimp only
      rw [Option.filter_some, hbound]
      change (Action.eval (.var q n) >>= _).run m = _
      rw [Action.run_bind, h, ← hfold]
      rfl
    | _ =>
      unfold Action.labelOf
      rw [Action.run_bind, Action.run_get]
      dsimp only [Option.filter_none]
      rw [Action.run_bind, h, ← hfold]
      rfl
  rw [Action.exec, Action.run_bind, Action.target, Action.run_bind, hlabelOf]
  dsimp only
  rw [Action.run_located, Action.labelFrame, Action.run_bind, Action.run_get]
  dsimp only
  rw [← hprogram] at hlabel
  rw [hlabel]
  rfl

end Machine

/-! ### Hosts and programs -/

/-- The text `w` names the same for the host and in programs, where it is read as `name`, while plain
names are looked up. -/
structure NamesAlike (w name : String) : Prop where
  /-- What the host stores is the value of the expression. -/
  stored : ∃ p, parse ("x = " ++ w) = .ok ⟨#[.assign ⟨1, 1⟩ "x" (.var p name)], [], []⟩ ∧
    ∀ (m : Machine) (v : Value), m.literalNames = false →
      (Action.eval (.var p name)).run (m.store w v) = (.ok v, m.store w v)
  /-- What a program assigns is what the host fetches. -/
  assigned : ∀ e : Expr, e.Legible → ∃ e',
    parse (w ++ " = " ++ e.display) = .ok ⟨#[.assign ⟨1, 1⟩ name e'], [], []⟩ ∧
      e'.bare = e.bare ∧
      ∀ (m m' : Machine) (v : Value), (Action.eval e').run m = (.ok v, m') →
        ∃ after, (Action.exec (.assign ⟨1, 1⟩ name e')).run m = (.ok (), after) ∧
          after.fetch w = some v
  /-- A function of the host is called by its name, unless the name holds a container. -/
  function : ∀ es : List Expr, (∀ e ∈ es, e.Legible) → ∃ p es',
    parse ("x = " ++ (w ++ "(" ++ Expr.displayList es ++ ")")) =
        .ok ⟨#[.assign ⟨1, 1⟩ "x" (.select p name es' [])], [], []⟩ ∧
      Expr.bareList es' = Expr.bareList es ∧
      ∀ (m : Machine) (f : Function), (m.scope.fetch name).filter Value.isContainer = none →
        (Action.eval (.select p name es' [])).run (m.defineFunction w f) =
          (do
            let args ← Action.evalAll es'
            Action.located p (Function.call f.action args) : Action Value).run
              (m.defineFunction w f)
  /-- A command of the host is run by its name. -/
  command : parse w =
      .ok ⟨#[.command ⟨1, 1⟩ name none (Build.literalCommands.contains name)], [], []⟩ ∧
    ∀ (m : Machine) (c : Command) (p : Pos) (args : Option Expr) (literal : Bool),
      (Action.exec (.command p name args literal)).run (m.defineCommand w c) =
        (do
          let vs ← Action.naming literal (Action.evalArgs args)
          Action.located p (Action.perform c.action vs) : Action Unit).run
            (m.defineCommand w c)
  /-- A jump to the text goes to the label. -/
  label : parse (w ++ ":") = .ok ⟨#[], [(name, 0)], []⟩ ∧
    ∀ (e : Expr) (m m' : Machine) (frame : Frame) (p : Pos), m.literalNames = false →
      (Action.eval e).run m = (.ok (.text w), m') → m.program.label? name = some frame →
        (Action.exec (.goto p e)).run m =
          (.ok (), { m' with code := some frame.block, pc := frame.addr })

theorem namesAlike_of_fold {w name : String} (h : NameText w.toList name)
    (hfold : Text.fold w = name) : NamesAlike w name where
  stored := by
    obtain ⟨p, hparse⟩ := h.parse_value
    exact ⟨p, hparse, fun m v hnames => Machine.eval_stored hfold p hnames v⟩
  assigned e he := by
    obtain ⟨e', hparse, hbare⟩ := parse_assignment_of_spells h he he.spells_display
    exact ⟨e', hparse, hbare, fun m m' v hv => Machine.fetch_assigned hfold hv ⟨1, 1⟩⟩
  function es hes := by
    obtain ⟨p, es', hparse, hbare⟩ := h.parse_call hes
    exact ⟨p, es', hparse, hbare, fun m f hfree => Machine.eval_defined hfold m f hfree p es'⟩
  command := ⟨h.parse_alone, Machine.exec_defined hfold⟩
  label := ⟨h.parse_label, fun _ _ _ _ p hnames hv hlabel =>
    Machine.goto_text hfold hnames hv hlabel p⟩

/-- For every text that the lexer reads as one name from end to end, folding the whole text gives the
name that the lexer finds just when no capital sigma ends a word in it. If so, host and programs mean the
same by it, as variable, function, command and label. -/
theorem names_fold_alike {w name : String}
    (h : (lex w).lexemes = [⟨.ident name, ⟨1, 1⟩, w.length + 1, true⟩]) :
    (Text.fold w = name ↔ ¬Text.EndsWordInSigma [] w.toList) ∧
      (¬Text.EndsWordInSigma [] w.toList → NamesAlike w name) := by
  have hname := nameText_of_lex h
  have hfold : Text.fold w = name ↔ ¬Text.EndsWordInSigma [] w.toList := by
    rw [← Text.fold_eq_ofList_iff, hname.folded]
  exact ⟨hfold, fun hsigma => namesAlike_of_fold hname (hfold.mpr hsigma)⟩

/-- A sigma in front of a letter, and a letter whose lower case has two characters. -/
theorem names_fold_alike_inside :
    (lex "ΣİΑ").lexemes = [⟨.ident "σi̇α", ⟨1, 1⟩, 4, true⟩] ∧
      ¬Text.EndsWordInSigma [] "ΣİΑ".toList ∧ NamesAlike "ΣİΑ" "σi̇α" := by
  have hlex : (lex "ΣİΑ").lexemes = [⟨.ident "σi̇α", ⟨1, 1⟩, 4, true⟩] := by decide +kernel
  have hsigma : ¬Text.EndsWordInSigma [] "ΣİΑ".toList :=
    (names_fold_alike hlex).1.mp (by decide +kernel)
  exact ⟨hlex, hsigma, (names_fold_alike hlex).2 hsigma⟩

/-- What the host stores under a name that ends in a capital sigma, programs do not find. -/
theorem final_sigma_folds_apart :
    (lex "ΑΣ").lexemes = [⟨.ident "ασ", ⟨1, 1⟩, 3, true⟩] ∧ Text.fold "ΑΣ" = "ας" ∧
      ∀ (config : Config) (random : Random) (p : Pos),
        ((Action.eval (.var p "ασ")).run
            ((Machine.new config random).store "ΑΣ" (.number 1))).1 =
          .error ((Error.unknownIdentifier "ασ").locatedAt p) := by
  have hfold : Text.fold "ΑΣ" = "ας" := by decide +kernel
  refine ⟨by decide +kernel, hfold, fun config random p => ?_⟩
  have hscope : ((Machine.new config random).store "ΑΣ" (.number 1)).scope =
      Scope.standard.store (Text.fold "ΑΣ") (.number 1) := rfl
  have hfetch : (Scope.standard.store "ας" (.number 1)).fetch "ασ" = none :=
    Option.isNone_iff_eq_none.mp (by decide +kernel)
  rw [Action.run_eval_var p _ rfl, hscope, hfold, hfetch]

end LineBasic
