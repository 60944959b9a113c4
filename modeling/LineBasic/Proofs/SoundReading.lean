import LineBasic.Proofs.Drafts

/-!
# What reading a program comes to

A source is at fault itself when it cannot be read, and the complaint says where: at a token, or where
the scanner stands, or at a loop that was opened. Otherwise no statement of the program has a list where
it cannot be evaluated, what it assigns are sound expressions, elements that are assigned have an index,
and every label is an address of the program.

Every reader of statements is described once, by what it does to a draft, what its result is like and
how far it takes the lexer. Its fuel is at least the size it starts below, and each turn of a loop starts
below a smaller one.
-/

namespace LineBasic

set_option autoImplicit false

variable {text : List Char}

namespace Build

open Parse (Blames Gives Shrinks next peek peekToken missingPos nextOnLine expect ident expr
  selector)

variable {α β : Type}

/-- An outcome of reading a text: a complaint about the text, or a result of which `q` holds together
with the draft, and a lexer below a size that may depend on the result. -/
def Good (text : List Char) (q : α → Draft → Prop) (t : α → Nat) :
    Except Error ((α × Draft) × Lexer) → Prop
  | .error e => e.Ordinary ∧ e.Raised text
  | .ok ((a, d), l) => d.Reading text ∧ l.Reading text ∧ q a d ∧ l.size < t a

theorem Good.imp {q q' : α → Draft → Prop} {t t' : α → Nat} {r : Except Error ((α × Draft) × Lexer)}
    (h : Good text q t r) (hq : ∀ a d, q a d → q' a d) (ht : ∀ a, t a ≤ t' a) :
    Good text q' t' r := by
  rcases r with e | ⟨⟨a, d⟩, l⟩
  · exact h
  · obtain ⟨hd, hp, ha, hl⟩ := h
    exact ⟨hd, hp, hq a d ha, Nat.lt_of_lt_of_le hl (ht a)⟩

theorem Good.of_fault {q : α → Draft → Prop} {t : α → Nat} {pos : Pos} (hpos : pos.In text) {e : Error}
    (hkind : e.code.kind ≠ .execution) (hdetail : e.code = .malformed → e.detail ≠ "EXPECTED INDEX")
    (he : e.pos = some pos) (hexcerpt : e.excerpt = none) : Good text q t (.error e) :=
  ⟨.of_kind hkind hdetail, ⟨hkind, pos, he, hpos⟩, hexcerpt⟩

/-- A reader that keeps drafts in order while it reads a text. From a lexer below the size `s` it comes
to a good outcome, in which the result is in the relation `P` to the drafts before and after. -/
def Reads (text : List Char) (s : Nat) (P : Draft → α → Draft → Prop) (t : α → Nat)
    (x : Build α) : Prop :=
  ∀ d l, d.Reading text → l.Reading text → l.size < s → Good text (P d) t (x d l)

/-- A reader that leaves the draft alone, with what is said of its result. -/
abbrev Takes (text : List Char) (s : Nat) (p : α → Prop) (t : α → Nat) (x : Build α) : Prop :=
  Reads text s (fun d a d' => d' = d ∧ p a) t x

/-- A reader that may add labels and literals to the draft, but neither statements nor loops. -/
abbrev Notes (text : List Char) (s : Nat) (x : Build α) : Prop :=
  Reads text s (fun d _ d' => d'.shape = d.shape) (fun _ => s) x

section Logic

variable {s : Nat} {P : Draft → α → Draft → Prop} {Q : Draft → β → Draft → Prop} {t : α → Nat}
  {u : β → Nat}

namespace Reads

theorem of_pure {a : α} (h : ∀ d, P d a d) : Reads text s P (fun _ => s) (pure a) :=
  fun d _ hd hp hl => ⟨hd, hp, h d, hl⟩

theorem of_malformed {pos : Pos} (hpos : pos.In text) {detail : String}
    (h : detail ≠ "EXPECTED INDEX") : Reads text s P t (throw (.malformed pos detail)) :=
  fun _ _ _ _ _ => Good.of_fault hpos nofun (fun _ => h) rfl rfl

theorem bind_good {x : Build α} {f : α → Build β} (hx : Reads text s P t x)
    (hf : ∀ d a d' l', P d a d' → d'.Reading text → l'.Reading text → l'.size < t a →
      Good text (Q d) u (f a d' l')) : Reads text s Q u (x >>= f) := by
  intro d l hd hp hl
  have hread := hx d l hd hp hl
  cases h : x d l with
  | error e =>
    rw [bind_of_error h]
    rw [h] at hread
    exact hread
  | ok r =>
    obtain ⟨⟨a, d'⟩, l'⟩ := r
    rw [bind_of_ok h]
    rw [h] at hread
    obtain ⟨hd', hp', ha, hl'⟩ := hread
    exact hf d a d' l' ha hd' hp' hl'

theorem of_bind {x : Build α} {f : α → Build β} (hx : Reads text s P t x)
    (hf : ∀ a, Reads text (t a) (fun d' b d'' => ∀ d, P d a d' → Q d b d'') u (f a)) :
    Reads text s Q u (x >>= f) :=
  hx.bind_good fun d a d' l' ha hd hp hl =>
    (hf a d' l' hd hp hl).imp (fun _ _ h => h d ha) fun _ => Nat.le_refl _

theorem mono {s' : Nat} {t' : α → Nat} {x : Build α} (hx : Reads text s P t x) (hs : s' ≤ s)
    (ht : ∀ a, t a ≤ t' a) : Reads text s' P t' x :=
  fun d l hd hp hl => (hx d l hd hp (Nat.lt_of_lt_of_le hl hs)).imp (fun _ _ => id) ht

theorem imp {P' : Draft → α → Draft → Prop} {x : Build α} (hx : Reads text s P t x)
    (h : ∀ d a d', P d a d' → P' d a d') : Reads text s P' t x :=
  fun d l hd hp hl => (hx d l hd hp hl).imp (h d) fun _ => Nat.le_refl _

theorem of_modify {P : Draft → PUnit → Draft → Prop} {f : Draft → Draft}
    (h : ∀ d : Draft, d.Reading text → (f d).Reading text) (hP : ∀ d, P d ⟨⟩ (f d)) :
    Reads text s P (fun _ => s) (modifyThe Draft f) :=
  fun d _ hd hp hl => ⟨h d hd, hp, hP d, hl⟩

theorem of_ite {c : Prop} [Decidable c] {x y : Build α} (hx : Reads text s P t x)
    (hy : Reads text s P t y) : Reads text s P t (if c then x else y) := by
  split
  · exact hx
  · exact hy

theorem of_lexer {k : Lexer → Build β}
    (hk : ∀ l : Lexer, l.Reading text → l.size < s → Reads text s Q u (k l)) :
    Reads text s Q u (getThe Lexer >>= k) :=
  fun d l hd hp hl => hk l hp hl d l hd hp hl

end Reads

namespace Takes

variable {p : α → Prop}

theorem of_pure {a : α} (h : p a) : Takes text s p (fun _ => s) (pure a) :=
  Reads.of_pure fun _ => ⟨rfl, h⟩

theorem of_bind {x : Build α} {f : α → Build β} (hx : Takes text s p t x)
    (hf : ∀ a, p a → Reads text (t a) Q u (f a)) : Reads text s Q u (x >>= f) := by
  apply Reads.bind_good hx
  rintro d a _ l' ⟨rfl, ha⟩ hd hp hl
  exact hf a ha _ l' hd hp hl

theorem after {x : Build α} {f : α → Build β} {r : Nat}
    (hx : Takes text s (fun _ => True) (fun _ => r) x) (hf : ∀ a, Reads text r Q u (f a)) :
    Reads text s Q u (x >>= f) :=
  hx.of_bind fun a _ => hf a

theorem of_lift {x : Parse α} (hblames : Blames s x) (hgives : Gives text p x)
    (hsize : ∀ l a l', l.size < s → x l = .ok (a, l') → l'.size < t a) :
    Takes text s p t (liftM x : Build α) := by
  intro d l hd hp hl
  have hread := hgives l hp
  cases h : x l with
  | error e =>
    rw [h] at hread
    rw [lift_of_error h]
    refine hread.resolve_left fun hinternal => hblames l e hl h ?_
    rw [hinternal]
    rfl
  | ok r =>
    rw [h] at hread
    rw [lift_of_ok h]
    exact ⟨hd, hread.2, ⟨rfl, hread.1⟩, hsize l r.1 r.2 hl h⟩

theorem of_shrinks {x : Parse α} (hblames : Blames s x) (hgives : Gives text p x)
    (hx : Shrinks x) : Takes text s p (fun _ => s) (liftM x : Build α) :=
  of_lift hblames hgives fun l a l' hl h => Nat.lt_of_le_of_lt (hx l a l' h) hl

theorem of_set {l : Lexer} {s' : Nat} (hp : l.Reading text) (hl : l.size < s') :
    Takes text s (fun _ => True) (fun _ => s') (set l : Build PUnit) :=
  fun _ _ hd _ _ => ⟨hd, hp, ⟨rfl, trivial⟩, hl⟩

end Takes

/-- What is read behind labels and literals is read into the draft with them. -/
theorem Notes.of_bind {x : Build α} {f : α → Build β} (hx : Notes text s x)
    (hQ : ∀ d₁ d₂ b d', d₁.shape = d₂.shape → Q d₁ b d' → Q d₂ b d')
    (hf : ∀ a, Reads text s Q u (f a)) : Reads text s Q u (x >>= f) :=
  Reads.of_bind hx fun a => (hf a).imp fun d' b d'' h d heq => hQ d' d b d'' heq h

end Logic

/-! ### Parts of statements -/

section Parts

variable {s : Nat}

theorem takes_next : Takes text s (Parse.Found text)
    (fun lexeme => if lexeme.isSome then s - 1 else s) (liftM next) := by
  apply Takes.of_lift (Parse.blames_next _) Parse.gives_next
  intro l lexeme l' hl h
  have hle := (Parse.next_ok h).2
  split at hle
  · rw [if_pos ‹_›]
    omega
  · rw [if_neg ‹_›]
    omega

theorem takes_skip : Takes text s (fun _ => True) (fun _ => s) (liftM next) :=
  .of_shrinks (Parse.blames_next s) Parse.gives_next.any Parse.shrinks_next

theorem takes_peek : Takes text s (fun _ => True) (fun _ => s) (liftM peek) :=
  .of_shrinks (Parse.blames_peek s) Parse.gives_peek.any Parse.shrinks_peek

theorem takes_peekToken : Takes text s (fun _ => True) (fun _ => s) (liftM peekToken) :=
  .of_shrinks (Parse.blames_peekToken s) Parse.gives_peekToken Parse.shrinks_peekToken

theorem takes_missingPos : Takes text s (fun _ => True) (fun _ => s) (liftM missingPos) :=
  .of_shrinks (Parse.blames_missingPos s) Parse.gives_missingPos.any Parse.shrinks_missingPos

section Details

variable {detail : String} (h : detail ≠ "EXPECTED INDEX")
include h

theorem takes_nextOnLine :
    Takes text s (·.Scanned text) (fun _ => s - 1) (liftM (nextOnLine detail)) := by
  apply Takes.of_lift (Parse.blames_nextOnLine _ detail) (Parse.gives_nextOnLine h)
  intro l lexeme l' hl hr
  have hlt := Parse.nextOnLine_ok hr
  omega

theorem takes_word : Takes text s (·.Scanned text) (fun _ => s) (liftM (nextOnLine detail)) :=
  .of_shrinks (Parse.blames_nextOnLine s detail) (Parse.gives_nextOnLine h)
    (Parse.shrinks_nextOnLine detail)

theorem takes_expect (token : Token) :
    Takes text s (fun _ => True) (fun _ => s) (liftM (expect token detail)) :=
  .of_shrinks (Parse.blames_expect s token detail) (Parse.gives_expect h token)
    (Parse.shrinks_expect token detail)

theorem takes_ident : Takes text s (fun _ => True) (fun _ => s - 1) (liftM (ident detail)) := by
  apply Takes.of_lift (Parse.blames_ident _ detail) (Parse.gives_ident h)
  intro l name l' hl hr
  have hlt := Parse.ident_ok hr
  omega

theorem takes_name : Takes text s (fun _ => True) (fun _ => s) (liftM (ident detail)) :=
  .of_shrinks (Parse.blames_ident s detail) (Parse.gives_ident h)
    fun _ _ _ hr => Nat.le_of_lt (Parse.ident_ok hr)

end Details

theorem takes_accept (token : Token) :
    Takes text s (fun _ => True) (fun _ => s) (accept token) := by
  apply takes_peekToken.after
  intro looked
  exact .of_ite (takes_skip.after fun _ => Takes.of_pure trivial) (Takes.of_pure trivial)

variable {n : Nat} (hn : s ≤ n)
include hn

theorem takes_value : Takes text s Expr.Sound (fun _ => s) (liftM (expr n)) :=
  .of_shrinks ((Parse.blames_expr n).mono hn) (Parse.gives_expr n) (Parse.shrinks_expr n)

theorem takes_expr : Takes text s Expr.Listless (fun _ => s) (liftM (expr n)) :=
  .of_shrinks ((Parse.blames_expr n).mono hn)
    ((Parse.gives_expr n).imp fun _ => Expr.Sound.listless)
    (Parse.shrinks_expr n)

theorem takes_selector :
    Takes text s (fun levels => levels.selector.Listless) (fun _ => s) (liftM (selector n)) :=
  .of_shrinks (Parse.blames_selectorWith ((Parse.blames_expr n).mono hn) (Parse.shrinks_expr n) hn)
    ((Parse.gives_selector n).imp fun _ => Levels.Sound.listless)
    (Parse.shrinks_selectorWith (Parse.shrinks_expr n) n)

theorem takes_arguments (keep : Bool) :
    Takes text s (fun args => ∀ e ∈ Expr.arguments args, e.Listless) (fun _ => s)
      (liftM (Parse.arguments keep n)) :=
  .of_shrinks ((Parse.blames_arguments keep n).mono hn) (Parse.gives_arguments keep n)
    (Parse.shrinks_arguments keep n)

end Parts

theorem takes_constant {s : Nat} : Takes text s (fun _ => True) (fun _ => s - 1) constant := by
  apply (takes_nextOnLine (by decide)).of_bind
  intro lexeme hlexeme
  split
  · exact Takes.of_pure trivial
  · exact Takes.of_pure trivial
  · apply (takes_word (by decide)).of_bind
    intro following _
    split
    · exact Takes.of_pure trivial
    · exact .of_malformed hlexeme.pos (by decide)
  · split
    · exact Takes.of_pure trivial
    · exact .of_malformed hlexeme.pos (by decide)
  · exact .of_malformed hlexeme.pos (by decide)

theorem notes_addLabel {s : Nat} (name : String) : Notes text s (addLabel name) := by
  refine .of_modify (fun d hreading => ?_) fun _ => rfl
  obtain ⟨hd, hin⟩ := hreading
  refine ⟨⟨hd.statements, hd.loops, ?_⟩, ⟨hin.loops⟩⟩
  intro label hlabel
  rcases Array.mem_push.mp hlabel with hlabel | rfl
  · exact hd.labels label hlabel
  · exact Nat.le_refl _

/-- Literals are no labels. -/
theorem reads_addData {s : Nat} (constant : Constant) :
    Reads text s (fun d _ d' => d'.shape = d.shape ∧ d'.labels = d.labels) (fun _ => s)
      (addData constant) := by
  refine .of_modify (fun d hreading => ?_) fun _ => ⟨rfl, rfl⟩
  obtain ⟨hd, hin⟩ := hreading
  exact ⟨⟨hd.statements, hd.loops, hd.labels⟩, ⟨hin.loops⟩⟩

theorem reads_data {s n : Nat} (hn : s ≤ n) :
    Reads text s (fun d _ d' => d'.shape = d.shape ∧ d'.labels = d.labels) (fun _ => s) (data n) := by
  induction n generalizing s with
  | zero =>
    intro d l _ _ hl
    omega
  | succ n ih =>
    refine takes_constant.after fun c => (reads_addData c).of_bind fun _ =>
      (takes_accept _).after fun more => ?_
    apply Reads.mono _ (Nat.le_refl _) fun _ => Nat.sub_le s 1
    refine .of_ite ((ih (by omega)).imp ?_) (.of_pure fun _ _ h => h)
    rintro d' _ d'' ⟨hshape, hlabels⟩ d ⟨hshape', hlabels'⟩
    exact ⟨hshape.trans hshape', hlabels.trans hlabels'⟩

/-- Targets whose expressions are no lists, and whose elements have an index. -/
structure TargetsSound (ts : List Target) : Prop where
  listless : ∀ e ∈ ts.flatMap Target.exprs, e.Listless
  indexed : ∀ selector ∈ ts.filterMap Target.selector?, selector.Indexed

theorem TargetsSound.append {ts us : List Target} (h : TargetsSound ts) (h' : TargetsSound us) :
    TargetsSound (ts ++ us) where
  listless := by
    rw [List.flatMap_append]
    exact List.forall_mem_append.mpr ⟨h.listless, h'.listless⟩
  indexed := by
    rw [List.filterMap_append]
    exact List.forall_mem_append.mpr ⟨h.indexed, h'.indexed⟩

theorem takes_targets {s m n : Nat} (hm : s ≤ m) (hn : s ≤ n) :
    Takes text s TargetsSound (fun _ => s) (targets m n) := by
  induction n generalizing s with
  | zero =>
    intro d l _ _ hl
    omega
  | succ n ih =>
    have hmore (target : Target) (htarget : TargetsSound [target]) :
        Takes text (s - 1) TargetsSound (fun _ => s) (do
          if ← accept .comma then pure (target :: (← targets m n)) else pure [target]) := by
      apply Reads.mono _ (Nat.le_refl _) fun _ => Nat.sub_le s 1
      apply (takes_accept _).after
      intro more
      apply Reads.of_ite
      · exact (ih (by omega) (by omega)).of_bind fun rest hrest =>
          Takes.of_pure (htarget.append hrest)
      · exact Takes.of_pure htarget
    refine (takes_ident (by decide)).after fun name => (takes_accept _).after fun indexed => ?_
    apply Reads.of_ite
    · refine (takes_selector (by omega)).of_bind fun levels hlevels => ?_
      refine Takes.of_bind (Takes.of_pure ⟨?_, ?_⟩) hmore
      · rw [List.flatMap_singleton]
        exact hlevels.flatten
      · exact List.forall_mem_singleton.mpr (List.cons_ne_nil _ _)
    · exact Takes.of_bind (Takes.of_pure ⟨nofun, nofun⟩) hmore

theorem takes_target {s n : Nat} (hn : s ≤ n) :
    Takes text s Expr.Listless (fun _ => s) (target n) := by
  apply (takes_accept _).after
  intro named
  apply Reads.of_ite
  · exact (takes_name (by decide)).after fun _ => Takes.of_pure (.text _ _)
  · exact takes_expr hn

theorem takes_label {s : Nat} : Takes text s (fun _ => True) (fun _ => s - 1) label := by
  apply (takes_nextOnLine (by decide)).of_bind
  intro lexeme hlexeme
  split
  · exact Takes.of_pure trivial
  · exact Takes.of_pure trivial
  · exact (takes_name (by decide)).after fun _ => Takes.of_pure trivial
  · exact .of_malformed hlexeme.pos (by decide)

theorem takes_labels {s n : Nat} (hn : s ≤ n) :
    Takes text s (fun _ => True) (fun _ => s) (labels n) := by
  induction n generalizing s with
  | zero =>
    intro d l _ _ hl
    omega
  | succ n ih =>
    refine takes_label.after fun _ => (takes_accept _).after fun _ => ?_
    apply Reads.mono _ (Nat.le_refl _) fun _ => Nat.sub_le s 1
    exact .of_ite ((ih (by omega)).after fun _ => Takes.of_pure trivial) (Takes.of_pure trivial)

theorem takes_guard {s n : Nat} (hn : s ≤ n) :
    Takes text s (fun g => ∀ e ∈ (g.map Guard.condition).toList, e.Listless) (fun _ => s)
      (guard n) := by
  refine (takes_accept _).after fun _ => .of_ite ?_ ?_
  · exact (takes_expr hn).of_bind fun e he => Takes.of_pure (List.forall_mem_singleton.mpr he)
  · refine (takes_accept _).after fun _ => .of_ite ?_ (Takes.of_pure nofun)
    exact (takes_expr hn).of_bind fun e he => Takes.of_pure (List.forall_mem_singleton.mpr he)

/-! ### Statements -/

/-- A reader of a sound statement at a position. -/
abbrev ReadsStmt (text : List Char) (s : Nat) (pos : Pos) (x : Build (Stmt LoopId)) : Prop :=
  Reads text s (Draft.GetsAt pos) (fun _ => s) x

/-- A statement that neither opens nor closes a loop. -/
theorem ReadsStmt.of_pure {s : Nat} {pos : Pos} {st : Stmt LoopId} (h : st.Sound)
    (hpos : st.pos = pos) (hshape : ∀ f : Shape, f.Reads st f) : ReadsStmt text s pos (pure st) :=
  Reads.of_pure fun _ => ⟨⟨h, hshape _⟩, hpos, rfl⟩

section Statements

variable {s n : Nat} (hn : s ≤ n)
include hn

theorem reads_command (pos : Pos) (name : String) : ReadsStmt text s pos (command n pos name) :=
  (takes_arguments hn _).of_bind fun _ hargs =>
    ReadsStmt.of_pure (.of_listless hargs rfl rfl) rfl fun _ => rfl

omit hn in
theorem takes_assignedElement? :
    Takes text s (fun o => ∀ levels ∈ o, levels.selector.Listless) (fun _ => s)
      (assignedElement? n) := by
  apply Reads.of_lexer
  intro saved hproper hsaved
  apply takes_skip.after
  intro _
  apply Reads.of_lexer
  intro l hp hl
  -- A selector that cannot be read is no complaint: the lexer goes back to where it was.
  have hgives := Parse.gives_selector n l hp
  cases hread : (selector n).run l with
  | error e => exact (Takes.of_set hproper hsaved).after fun _ => Takes.of_pure nofun
  | ok r =>
    have hle := Parse.shrinks_selectorWith (Parse.shrinks_expr n) n l r.1 r.2 hread
    change selector n l = _ at hread
    rw [hread] at hgives
    refine (Takes.of_set hgives.2 (Nat.lt_of_le_of_lt hle hl)).after fun _ => (takes_accept _).after
      fun _ => .of_ite (Takes.of_pure ?_)
        ((Takes.of_set hproper hsaved).after fun _ => Takes.of_pure nofun)
    intro levels hlevels
    cases hlevels
    exact hgives.1.listless

theorem reads_assignedValue (pos : Pos) (name : String) :
    ReadsStmt text s pos (do pure (.assign pos name (← expr n))) := by
  apply (takes_value hn).of_bind
  refine fun e he => ReadsStmt.of_pure ⟨?_, ?_, List.forall_mem_nil _⟩ rfl fun _ => rfl
  · exact List.forall_mem_singleton.mpr he.listless
  · exact List.forall_mem_singleton.mpr he

theorem reads_assignedElement (pos : Pos) (name : String) {levels : Levels}
    (h : levels.selector.Listless) :
    ReadsStmt text s pos (do pure (.assignElement pos name levels.selector (← expr n))) := by
  refine (takes_value hn).of_bind fun e he => ReadsStmt.of_pure ⟨?_, ?_, ?_⟩ rfl fun _ => rfl
  · exact List.forall_mem_cons.mpr ⟨he.listless, h.flatten⟩
  · exact List.forall_mem_singleton.mpr he
  · exact List.forall_mem_singleton.mpr (List.cons_ne_nil _ _)

theorem reads_assignmentOrCommand (pos : Pos) (name : String) :
    ReadsStmt text s pos (assignmentOrCommand n pos name) := by
  apply takes_peekToken.after
  intro looked
  split
  · exact takes_skip.after fun _ => reads_assignedValue hn pos name
  · apply takes_assignedElement?.of_bind
    intro element helement
    split
    · exact reads_assignedElement hn pos name (helement _ rfl)
    · exact reads_command hn pos name
  · exact reads_command hn pos name

theorem reads_assign (pos : Pos) : ReadsStmt text s pos (assign n pos) := by
  refine (takes_name (by decide)).after fun name => (takes_accept _).after fun _ => ?_
  apply Reads.of_ite
  · exact (takes_selector hn).of_bind fun levels hlevels =>
      (takes_expect (by decide) _).after fun _ => reads_assignedElement hn pos name.2 hlevels
  · exact (takes_expect (by decide) _).after fun _ => reads_assignedValue hn pos name.2

omit hn in
/-- A statement that evaluates where it jumps to. -/
theorem reads_jumping {x : Build Expr} (hx : Takes text s Expr.Listless (fun _ => s) x)
    {f : Expr → Stmt LoopId} {pos : Pos}
    (hf : ∀ e, (f e).exprs = [e] ∧ (f e).rightSides = [] ∧ (f e).selectors = [] ∧ (f e).pos = pos)
    (hshape : ∀ (e : Expr) (g : Shape), g.Reads (f e) g) :
    ReadsStmt text s pos (do pure (f (← x))) := by
  refine hx.of_bind fun e he => ?_
  obtain ⟨hexprs, hsides, hselectors, hpos⟩ := hf e
  have hlistless : (f e).Listless := by
    rw [Stmt.Listless, hexprs]
    exact List.forall_mem_singleton.mpr he
  exact ReadsStmt.of_pure (.of_listless hlistless hsides hselectors) hpos (hshape e)

theorem reads_goto (pos : Pos) : ReadsStmt text s pos (do pure (.goto pos (← target n))) :=
  reads_jumping (takes_target hn) (fun _ => ⟨rfl, rfl, rfl, rfl⟩) fun _ _ => rfl

theorem reads_gosub (pos : Pos) : ReadsStmt text s pos (do pure (.gosub pos (← target n))) :=
  reads_jumping (takes_target hn) (fun _ => ⟨rfl, rfl, rfl, rfl⟩) fun _ _ => rfl

theorem reads_onJump (pos : Pos) : ReadsStmt text s pos (onJump n pos) := by
  apply (takes_expr hn).of_bind
  intro index hindex
  have hlistless := List.forall_mem_singleton.mpr hindex
  apply (takes_word (by decide)).of_bind
  intro lexeme hlexeme
  split
  · exact (takes_labels hn).after fun _ =>
      ReadsStmt.of_pure (.of_listless hlistless rfl rfl) rfl fun _ => rfl
  · exact (takes_labels hn).after fun _ =>
      ReadsStmt.of_pure (.of_listless hlistless rfl rfl) rfl fun _ => rfl
  · exact .of_malformed hlexeme.pos (by decide)

/-! ### Statements at a position that complaints may point to -/

variable {pos : Pos} (hpos : pos.In text)
include hpos

theorem reads_dim : ReadsStmt text s pos (dim n pos) := by
  refine (takes_name (by decide)).after fun name => (takes_expect (by decide) _).after fun _ =>
    (takes_selector hn).of_bind fun sizes hsizes => ?_
  have hdim : ReadsStmt text s pos (pure (.dim pos name.2 sizes.first)) :=
    ReadsStmt.of_pure (.of_listless (hsizes _ List.mem_cons_self) rfl rfl) rfl fun _ => rfl
  dsimp only
  split
  · exact Takes.after (r := s) (.of_malformed hpos (by decide)) fun _ => hdim
  · exact hdim

omit hn in
/-- A loop is opened with the number and at the address that its statement says. -/
theorem good_openLoop {st : Stmt LoopId} {loop : OpenLoop} {d : Draft} {l : Lexer}
    (hd : d.Reading text) (hp : l.Reading text) (hl : l.size < s) (hloop : loop.pos = pos)
    (hexprs : ∀ e ∈ loop.exprs, e.Listless) (hst : st.Sound) (hstarts : st.pos = pos)
    (hshape : d.shape.Reads st { d.shape with loops := loop :: d.loops, exits := d.exits.push 0 }) :
    Good text (Draft.GetsAt pos d) (fun _ => s) ((openLoop loop >>= fun _ => pure st) d l) := by
  obtain ⟨hsound, hin⟩ := hd
  refine ⟨⟨⟨hsound.statements, List.forall_mem_cons.mpr ⟨hexprs, hsound.loops⟩, hsound.labels⟩,
    ⟨List.forall_mem_cons.mpr ⟨hloop ▸ hpos, hin.loops⟩⟩⟩, hp, ⟨⟨hst, hshape⟩, hstarts, rfl⟩, hl⟩

theorem reads_forLoop : ReadsStmt text s pos (forLoop n pos) := by
  have hopen (var : String) (start limit : Expr) (step : Option Expr)
      (h : ∀ e ∈ start :: limit :: step.toList, e.Listless) : ReadsStmt text s pos (do
      let header : ForHeader LoopId := ⟨var, start, limit, step, (← here) + 1, ← nextLoopId⟩
      openLoop (.for pos header)
      pure (.for pos header)) :=
    fun d l hd hp hl => good_openLoop hpos hd hp hl rfl h (.of_listless h rfl rfl) rfl ⟨rfl, rfl, rfl⟩
  refine (takes_name (by decide)).after fun var => (takes_expect (by decide) _).after fun _ =>
    (takes_expr hn).of_bind fun start hstart => (takes_expect (by decide) _).after fun _ =>
    (takes_expr hn).of_bind fun limit hlimit => (takes_accept _).after fun _ => ?_
  split
  · rw [map_eq_pure_bind, bind_assoc]
    refine (takes_expr hn).of_bind fun step hstep => Takes.of_bind (Takes.of_pure ?_) (hopen _ _ _)
    exact List.forall_mem_cons.mpr ⟨hstart, List.forall_mem_cons.mpr
      ⟨hlimit, List.forall_mem_singleton.mpr hstep⟩⟩
  · refine Takes.of_bind (Takes.of_pure ?_) (hopen _ _ _)
    exact List.forall_mem_cons.mpr ⟨hstart, List.forall_mem_singleton.mpr hlimit⟩

theorem reads_doLoop : ReadsStmt text s pos (doLoop n pos) := by
  refine (takes_guard hn).of_bind fun g hg d l hd hp hl => ?_
  exact good_openLoop hpos hd hp hl rfl (List.forall_mem_nil _) (.of_listless hg rfl rfl) rfl
    ⟨rfl, rfl, rfl⟩

omit hn hpos in
/-- The loop that is taken is the innermost one. -/
theorem reads_takeLoop? :
    Reads text s (fun d o d' => ∀ loop ∈ o, (∀ e ∈ loop.exprs, e.Listless) ∧
      d.loops = loop :: d'.loops ∧ d' = { d with loops := d'.loops }) (fun _ => s) takeLoop? := by
  intro d l hd hp hl
  obtain ⟨statements, labels, data, loops, exits⟩ := d
  cases loops with
  | nil => exact ⟨hd, hp, nofun, hl⟩
  | cons loop outer =>
    obtain ⟨hd, hin⟩ := hd
    obtain ⟨hloop, houter⟩ := List.forall_mem_cons.mp hd.loops
    have hinside := (List.forall_mem_cons.mp hin.loops).2
    refine ⟨⟨⟨hd.statements, houter, hd.labels⟩, ⟨hinside⟩⟩, hp, ?_, hl⟩
    intro taken htaken
    cases htaken
    exact ⟨hloop, rfl, rfl⟩

omit hn hpos in
/-- A loop that was taken is closed by a statement. -/
theorem good_closeLoop (st : Stmt LoopId) (loop : OpenLoop) {d d' : Draft} {l : Lexer}
    (hd : d'.Reading text) (hp : l.Reading text) (hl : l.size < s)
    (htaken : d' = { d with loops := d'.loops }) (hst : st.Sound)
    (hshape : d.shape.Reads st { d.shape with
      loops := d'.loops
      exits := d.exits.setIfInBounds loop.exit (d.statements.size + 1) }) :
    Good text (Draft.GetsAt st.pos d) (fun _ => s)
      ((closeLoop loop.exit >>= fun _ => pure st) d' l) := by
  obtain ⟨hsound, hin⟩ := hd
  refine ⟨⟨⟨hsound.statements, hsound.loops, hsound.labels⟩, ⟨hin.loops⟩⟩, hp, ⟨⟨hst, ?_⟩, rfl, ?_⟩, hl⟩
  · rw [htaken]
    exact hshape
  · rw [htaken]

omit hn in
theorem reads_nextNamed (named : Option String) : ReadsStmt text s pos (nextNamed pos named) := by
  apply reads_takeLoop?.bind_good
  intro d taken d' l' htaken hd hp hl
  rcases taken with _ | ⟨opening, header⟩ | ⟨opening, header⟩
  · exact Good.of_fault hpos nofun nofun rfl rfl
  · obtain ⟨hexprs, hloops, hd'⟩ := htaken _ rfl
    have hclose := good_closeLoop (.next pos header) (.for opening header) hd hp hl hd'
      (.of_listless hexprs rfl rfl) ⟨opening, d'.loops, hloops, rfl⟩
    dsimp only
    split
    · exact Good.of_fault hpos nofun nofun rfl rfl
    · exact hclose
  · exact Good.of_fault hpos nofun nofun rfl rfl

omit hn in
theorem reads_nextLoop : ReadsStmt text s pos (nextLoop pos) := by
  apply takes_peekToken.after
  intro token
  split
  · exact takes_skip.after fun _ => reads_nextNamed hpos _
  · exact reads_nextNamed hpos _

theorem reads_loopEnd : ReadsStmt text s pos (loopEnd n pos) := by
  apply (takes_guard hn).of_bind
  intro g hg
  apply reads_takeLoop?.bind_good
  intro d taken d' l' htaken hd hp hl
  rcases taken with _ | ⟨opening, header⟩ | ⟨opening, header⟩
  · exact Good.of_fault hpos nofun nofun rfl rfl
  · exact Good.of_fault hpos nofun nofun rfl rfl
  · obtain ⟨-, hloops, hd'⟩ := htaken _ rfl
    exact good_closeLoop (.loop pos g header) (.do opening header) hd hp hl hd'
      (.of_listless hg rfl rfl) ⟨opening, d'.loops, hloops, rfl⟩

omit hn hpos in
theorem run_get_bind {α : Type} (f : Draft → Build α) (d : Draft) (l : Lexer) :
    (getThe Draft >>= f : Build α) d l = f d d l := rfl

omit hn in
theorem reads_breakLoop : ReadsStmt text s pos (breakLoop pos) := by
  intro d l hd hp hl
  have hleave (loop : OpenLoop) (outer : List OpenLoop) (h : d.loops = loop :: outer) :
      d.GetsAt pos (.leave pos loop.exit) d := by
    refine ⟨⟨.of_listless nofun rfl rfl, ?_, rfl⟩, rfl, rfl⟩
    rw [Shape.innermost, Draft.shape, h]
    rfl
  rw [breakLoop, run_get_bind]
  cases hloops : d.loops with
  | nil => exact Good.of_fault hpos nofun nofun rfl rfl
  | cons loop outer => exact ⟨hd, hp, hleave loop outer hloops, hl⟩

/-- Statements that start with a word other than `if`. -/
theorem reads_ofWord (word : Word) : ReadsStmt text s pos (ofWord n pos word) := by
  unfold ofWord
  split
  · exact reads_assign hn pos
  · exact reads_dim hn hpos
  · exact (takes_name (by decide)).after fun _ =>
      ReadsStmt.of_pure (.of_listless nofun rfl rfl) rfl fun _ => rfl
  · exact (takes_targets hn hn).of_bind fun ts hts =>
      ReadsStmt.of_pure ⟨hts.listless, List.forall_mem_nil _, hts.indexed⟩ rfl fun _ => rfl
  · exact reads_goto hn pos
  · exact reads_gosub hn pos
  · exact reads_onJump hn pos
  · exact reads_forLoop hn hpos
  · exact reads_nextLoop hpos
  · exact reads_doLoop hn hpos
  · exact reads_loopEnd hn hpos
  · exact reads_breakLoop hpos
  · exact ReadsStmt.of_pure (.of_listless nofun rfl rfl) rfl fun _ => rfl
  · exact ReadsStmt.of_pure (.of_listless nofun rfl rfl) rfl fun _ => rfl
  · exact ReadsStmt.of_pure (.of_listless nofun rfl rfl) rfl fun _ => rfl
  · exact .of_malformed hpos (Error.unexpected_ne _)

/-! ### Statements inside of statements -/

omit hpos

variable {statement : Build (Option (Stmt LoopId))}
  (hstatement : Reads text s Draft.GetsAny (fun _ => s) statement)
include hstatement

omit hn in
theorem reads_insisted : Reads text s Draft.Gets (fun _ => s) (insisted statement) := by
  refine Reads.of_bind hstatement fun found => ?_
  cases found with
  | some st => exact .of_pure fun _ _ h => h
  | none => exact .of_lexer fun l hl _ => .of_malformed hl.cursor.pos_in (by decide)

theorem reads_branch : Reads text s Draft.Gets (fun _ => s) (branch statement n) := by
  have hjump : Reads text s Draft.Gets (fun _ => s) (jump n) := by
    refine takes_missingPos.after fun pos => ?_
    exact (reads_goto hn pos).imp fun _ _ _ => Draft.GetsAt.toGets
  apply takes_peekToken.after
  intro token
  split
  · exact hjump
  · exact hjump
  · exact reads_insisted hstatement

theorem reads_branchOf (pos : Pos) (branching : Branching) :
    Reads text s Draft.Gets (fun _ => s) (branchOf statement n pos branching) := by
  cases branching with
  | statement => exact reads_branch hn hstatement
  | goto => exact (reads_goto hn pos).imp fun _ _ _ => Draft.GetsAt.toGets
  | gosub => exact (reads_gosub hn pos).imp fun _ _ _ => Draft.GetsAt.toGets

theorem reads_branches (pos wordPos : Pos) {condition : Expr} (hcondition : condition.Listless)
    (branching : Branching) : Reads text s Draft.Gets (fun _ => s)
      (branches statement n pos wordPos condition branching) := by
  refine Reads.of_bind (reads_branchOf hn hstatement wordPos branching) fun taken => ?_
  apply takes_peek.after
  intro looked
  split
  · refine takes_skip.after fun _ => ?_
    refine Reads.of_bind (reads_branchOf hn hstatement _ branching) fun otherwise => .of_pure ?_
    intro d'' d' hotherwise d htaken
    exact ⟨htaken.sound.choose hotherwise.sound hcondition pos, d'.shape, htaken.shape, hotherwise.shape⟩
  · exact .of_pure fun d' d htaken => ⟨htaken.sound.when hcondition pos, htaken.shape⟩

omit hstatement in
theorem takes_condition : Takes text s (·.1.Listless) (fun _ => s) (condition n) := by
  apply (takes_expr hn).of_bind
  intro condition hcondition
  apply (takes_word (by decide)).of_bind
  intro lexeme hlexeme
  split
  · exact Takes.of_pure hcondition
  · exact Takes.of_pure hcondition
  · exact Takes.of_pure hcondition
  · exact .of_malformed hlexeme.pos (by decide)

theorem reads_conditional (pos : Pos) :
    Reads text s Draft.Gets (fun _ => s) (conditional statement n pos) :=
  (takes_condition hn).of_bind fun _ hcondition => reads_branches hn hstatement pos _ hcondition _

end Statements

theorem takes_skipLine {s : Nat} :
    Takes text s (fun _ => True) (fun _ => s) (modifyThe Lexer Lexer.skipLine : Build PUnit) :=
  fun _ l hd hp hl =>
    ⟨hd, hp.skipLine, ⟨rfl, trivial⟩, Nat.lt_of_le_of_lt l.skipLine_size_le hl⟩

theorem Reads.some {s : Nat} {x : Build (Stmt LoopId)} (hx : Reads text s Draft.Gets (fun _ => s) x) :
    Reads text s Draft.GetsAny (fun _ => s) (Option.some <$> x) := by
  rw [map_eq_pure_bind]
  exact Reads.of_bind hx fun _ => .of_pure fun _ _ h => h

/-- What follows a token, with the rest of the text below the size. -/
theorem reads_following {s n : Nat} (hn : s ≤ n)
    (hmore : Reads text s Draft.GetsAny (fun _ => s) (statement n)) {lexeme : Lexeme}
    (hpos : lexeme.pos.In text) :
    Reads text s Draft.GetsAny (fun _ => s) (following n lexeme) := by
  have hlabelled (name : String) : Reads text s Draft.GetsAny (fun _ => s) (do
      addLabel name
      statement n) :=
    (notes_addLabel name).of_bind (fun _ _ _ _ => Draft.GetsAny.of_shape) fun _ => hmore
  unfold following statementFrom
  split
  · exact hmore
  · exact hlabelled _
  · apply takes_peek.after
    intro found
    exact .of_ite (takes_skip.after fun _ => hlabelled _)
      ((reads_assignmentOrCommand hn _ _).imp fun _ _ _ => Draft.GetsAt.toGets).some
  · exact takes_skipLine.after fun _ => hmore
  · refine Notes.of_bind ((reads_data hn).imp fun _ _ _ h => h.1)
      (fun _ _ _ _ => Draft.GetsAny.of_shape) fun _ => hmore
  · exact (reads_conditional hn hmore _).some
  · exact ((reads_ofWord hn hpos _).imp fun _ _ _ => Draft.GetsAt.toGets).some
  · exact .of_malformed hpos (Error.unexpected_ne _)

/-- A statement takes a token at least. -/
theorem reads_statement {s n : Nat} (hn : s ≤ n) :
    Reads text s Draft.GetsAny (fun o => if o.isSome then s - 1 else s) (statement n) := by
  induction n generalizing s with
  | zero =>
    intro d l _ _ hl
    omega
  | succ n ih =>
    apply takes_next.of_bind
    intro found hfound
    cases found with
    | none => exact fun _ _ hd hp hl => ⟨hd, hp, rfl, hl⟩
    | some lexeme =>
      have hs : s - 1 ≤ n := by omega
      have hmore : Reads text (s - 1) Draft.GetsAny (fun _ => s - 1) (statement n) := by
        apply (ih hs).mono (Nat.le_refl _)
        intro o
        split
        · exact Nat.sub_le _ 1
        · exact Nat.le_refl _
      apply (reads_following hs hmore (hfound lexeme rfl).pos).mono (Nat.le_refl _)
      intro o
      split
      · exact Nat.le_refl _
      · exact Nat.sub_le s 1

theorem reads_program {s n : Nat} (hn : s ≤ n) :
    Reads text s (fun d _ d' => d.shape.Grows d'.shape) (fun _ => s) (program n) := by
  induction n generalizing s with
  | zero =>
    intro d l _ _ hl
    omega
  | succ n ih =>
    rw [program_succ]
    apply (reads_statement hn).bind_good
    intro d found d' l' hgets hd hp hl
    cases found with
    | none => exact ⟨hd, hp, hgets ▸ .done _, hl⟩
    | some st =>
      have hs : s - 1 ≤ n := by omega
      exact (ih hs _ l' (hd.push hgets.sound) hp hl).imp (fun _ _ => .add hgets.shape) fun _ => Nat.sub_le s 1

end Build

/-! ### Programs -/

theorem Draft.sound_empty : Sound {} :=
  ⟨fun _ h => absurd h (Array.not_mem_empty _), nofun, fun _ h => absurd h (Array.not_mem_empty _)⟩

theorem reads_source (source : String) :
    Build.Good source.toList (fun _ d => Shape.Grows ⟨#[], [], #[]⟩ d.shape)
      (fun _ => source.length + 1)
      (Build.program (source.length + 1) {} (Lexer.ofSource source)) :=
  Build.reads_program (Nat.le_refl _) {} (Lexer.ofSource source) ⟨Draft.sound_empty, ⟨nofun⟩⟩
    (.start source) (size_ofSource source)

/-- A complaint about a source is raised without an excerpt and gets it at last. -/
theorem complaint_of_parse {source : String} {e : Error} (h : parse source = .error e) :
    ∃ raised : Error, (raised.Ordinary ∧ raised.Raised source.toList) ∧ e = raised.withSource source := by
  have hread := reads_source source
  unfold parse at h
  change Except.mapError _ (Except.bind (Build.program _ {} (Lexer.ofSource source)) _) = _ at h
  revert hread h
  rcases Build.program (source.length + 1) {} (Lexer.ofSource source) with e' | ⟨⟨_, d⟩, l⟩
  · intro hread h
    cases h
    exact ⟨e', hread, rfl⟩
  · intro hread h
    change d.finish.mapError _ = _ at h
    unfold Draft.finish at h
    split at h
    · rename_i loop outer hloops
      cases h
      have hpos := hread.1.inside.loops loop (hloops ▸ List.mem_cons_self)
      exact ⟨_, OpenLoop.faulty_unclosed hpos, rfl⟩
    · cases h

/-- A source that cannot be read is at fault itself. -/
theorem ordinary_of_parse {source : String} {e : Error} (h : parse source = .error e) :
    e.Ordinary := by
  obtain ⟨raised, ⟨hordinary, -⟩, rfl⟩ := complaint_of_parse h
  exact hordinary.withSource source

theorem grows_of_program {source : String} {d : Draft} {l : Lexer}
    (h : Build.program (source.length + 1) {} (Lexer.ofSource source) = .ok (((), d), l)) :
    d.Sound ∧ Shape.Grows ⟨#[], [], #[]⟩ d.shape := by
  have hread := reads_source source
  rw [h] at hread
  exact ⟨hread.1.sound, hread.2.2.1⟩

theorem draft_of_parse {source : String} {code : Code} (h : parse source = .ok code) :
    ∃ d : Draft, d.Sound ∧ Shape.Grows ⟨#[], [], #[]⟩ d.shape ∧ d.finish = .ok code := by
  obtain ⟨d, l, hread, hfinish⟩ := parse_ok h
  obtain ⟨hsound, hgrows⟩ := grows_of_program hread
  exact ⟨d, hsound, hgrows, hfinish⟩

theorem sound_of_parse {source : String} {code : Code} (h : parse source = .ok code) :
    ∀ s ∈ code.statements, s.Sound := by
  obtain ⟨d, hd, -, hfinish⟩ := draft_of_parse h
  rw [(d.finish_ok hfinish).2]
  intro s hs
  obtain ⟨s', hs', rfl⟩ := Array.mem_map.mp hs
  exact (hd.statements s' hs').mapExit _

theorem labels_le_of_parse {source : String} {code : Code} (h : parse source = .ok code) :
    ∀ label ∈ code.labels, label.2 ≤ code.statements.size := by
  obtain ⟨d, hd, -, hfinish⟩ := draft_of_parse h
  have hstatements := (d.finish_ok hfinish).2
  unfold Draft.finish at hfinish
  split at hfinish
  · cases hfinish
  · cases hfinish
    intro label hlabel
    rw [hstatements, Array.size_map]
    exact hd.labels label (Array.mem_toList_iff.mp hlabel)

end LineBasic
