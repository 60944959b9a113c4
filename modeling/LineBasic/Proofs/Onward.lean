import LineBasic.Proofs.CoupledCode
import LineBasic.Proofs.Rows

/-!
# Reading goes on

Tokens are read in the order of their positions: a reader comes to no token before those that it was
given already, and each token stands in the text where its position says. A text beside itself shows
that for all readers at once.
-/

namespace LineBasic

set_option autoImplicit false

instance : LE Pos :=
  ⟨fun p q => p.line < q.line ∨ p.line = q.line ∧ p.col ≤ q.col⟩

instance : LT Pos :=
  ⟨fun p q => p.line < q.line ∨ p.line = q.line ∧ p.col < q.col⟩

instance (p q : Pos) : Decidable (p < q) :=
  inferInstanceAs (Decidable (_ ∨ _))

namespace Pos

variable {p q r : Pos}

theorem le_iff : p ≤ q ↔ p.line < q.line ∨ p.line = q.line ∧ p.col ≤ q.col := Iff.rfl

theorem lt_iff : p < q ↔ p.line < q.line ∨ p.line = q.line ∧ p.col < q.col := Iff.rfl

theorem le_refl (p : Pos) : p ≤ p :=
  .inr ⟨rfl, Nat.le_refl _⟩

theorem le_of_lt (h : p < q) : p ≤ q := by
  rw [lt_iff] at h
  rw [le_iff]
  omega

theorem le_trans (h : p ≤ q) (h' : q ≤ r) : p ≤ r := by
  rw [le_iff] at h h' ⊢
  omega

theorem lt_of_le_of_lt (h : p ≤ q) (h' : q < r) : p < r := by
  rw [le_iff] at h
  rw [lt_iff] at h' ⊢
  omega

theorem lt_asymm (h : p < q) : ¬q < p := by
  rw [lt_iff] at h ⊢
  omega

/-- The position behind a character. -/
def next (p : Pos) : Pos :=
  ⟨p.line, p.col + 1⟩

theorem next_le_iff : p.next ≤ q ↔ p < q := by
  rw [le_iff, lt_iff, next]
  exact Iff.rfl

end Pos

namespace Cursor

theorem le_skipFrom_pos (gap : Gap) (cs : List Char) (pos : Pos) (lead : Bool) :
    pos ≤ (skipFrom gap cs pos lead).pos := by
  fun_induction skipFrom gap cs pos lead with
  | case1 => exact Pos.le_refl _
  | case2 gap pos lead cs ih => exact Pos.le_trans (.inl (Nat.lt_succ_self _)) ih
  | case3 gap pos lead c cs hcrlf hc ih => exact Pos.le_trans (.inl (Nat.lt_succ_self _)) ih
  | case4 =>
    rename_i ih
    exact Pos.le_trans (q := ⟨_, _ + 1⟩) (.inr ⟨rfl, Nat.le_succ _⟩) ih
  | case5 => exact Pos.le_refl _

theorem le_skipLine_pos (c : Cursor) : c.pos ≤ c.skipLine.pos :=
  .inr ⟨rfl, Nat.le_add_right _ _⟩

theorem pos_of_scan {c c' : Cursor} {lexeme : Lexeme} (h : c.scan = (.ok (some lexeme), c')) :
    c.pos ≤ lexeme.pos ∧ lexeme.pos < c'.pos := by
  obtain ⟨ch, cs, hrest, hread, hpos, -, rfl⟩ := scan_of_token h
  have hhead := skipFrom_head hrest
  have hused := readToken_used_pos hhead.1 hhead.2 hread
  rw [hpos]
  exact ⟨le_skipFrom_pos .code c.rest c.pos c.lead, .inr ⟨rfl, Nat.lt_add_of_pos_right hused⟩⟩

end Cursor

/-- A token that a text has at the token's position. -/
def Lexeme.StandsIn (lexeme : Lexeme) (text : List Char) : Prop :=
  ∃ ch cs, Stands text (ch :: cs) lexeme.pos ∧
    (Cursor.readToken ch cs).result = .ok lexeme.token

/-- What is known of a token when the cursor stands behind it. -/
structure Taken (text : List Char) (p : Pos) (lexeme : Lexeme) (c : Cursor) : Prop where
  le_pos : p ≤ lexeme.pos
  pos_lt : lexeme.pos < c.pos
  stands : lexeme.StandsIn text
  cursor : c.In text

theorem taken_of_scan {text : List Char} {c c' : Cursor} {lexeme : Lexeme} (hin : c.In text)
    (h : c.scan = (.ok (some lexeme), c')) : Taken text c.pos lexeme c' := by
  obtain ⟨ch, cs, hrest, hread, hpos, -⟩ := Cursor.scan_of_token h
  obtain ⟨hle, hlt⟩ := Cursor.pos_of_scan h
  refine ⟨hle, hlt, ⟨ch, cs, ?_, hread⟩, ?_⟩
  · rw [hpos, ← hrest]
    exact hin.skipGap
  · have hscan := hin.scan
    rw [h] at hscan
    exact hscan.1

/-- A text beside itself, with all tokens to come at or behind a position. -/
def beyond (text : List Char) (p : Pos) : Coupling where
  move := id
  Known := Taken text p
  Linked c c' := c = c' ∧ p ≤ c.pos ∧ c.In text
  Ended c c' := c = c' ∧ c.scan = (.ok none, c)
  scanned := by
    rintro c _ ⟨rfl, hp, hin⟩
    rcases hscan : c.scan with ⟨e | _ | lexeme, c'⟩
    · exact .error rfl
    · exact .agreed (.stop ⟨rfl, (Cursor.scan_of_end hscan).2.2⟩)
    · have htaken := taken_of_scan hin hscan
      have hle := Pos.le_trans hp htaken.le_pos
      have hbehind := Pos.le_trans hle (Pos.le_of_lt htaken.pos_lt)
      refine .agreed (@Coupling.Agreed.token id _ _ _ _ lexeme c' c' ⟨?_, ?_, ?_, ?_⟩)
      · exact { htaken with le_pos := hle }
      · exact fun after c₁ => Cursor.touches_eq_false_of_lead hscan
      · exact fun _ => ⟨rfl, Pos.le_trans hbehind c'.le_skipLine_pos, htaken.cursor.skipLine⟩
      · exact fun _ => ⟨rfl, hbehind, htaken.cursor⟩
  touches _ _ := rfl
  ended := by
    rintro c _ ⟨rfl, hscan⟩
    exact ⟨hscan, fun _ => hscan⟩

/-- A lexer in a text, with all tokens to come at or behind a position. -/
def Lexer.Ahead (text : List Char) (p : Pos) (l : Lexer) : Prop :=
  (beyond text p).Beside l l

variable {text : List Char}

namespace Lexer.Ahead

variable {p q : Pos} {l m : Lexer}

theorem of_cursor {c : Cursor} (h : p ≤ c.pos) (hin : c.In text) (last : Option Lexeme) :
    Ahead text p ⟨c, last, false⟩ :=
  Coupling.beside_of_linked (show (beyond text p).Linked c c from ⟨rfl, h, hin⟩) last last

/-- No remark is taken for the end of a line where both texts are the same. -/
theorem not_remark {c : Cursor} {lexeme : Lexeme} (hrem : lexeme.token = .word .rem) :
    ¬Coupling.Agreed (beyond text p).move (beyond text p).Known (beyond text p).Linked
      (beyond text p).Ended (beyond text p).stop c.skipLine.scan (.ok (some lexeme), c) := by
  intro h
  generalize hscan : c.skipLine.scan = r at h
  generalize hr : ((.ok (some lexeme), c) : Except Error (Option Lexeme) × Cursor) = r' at h
  cases h with
  | stop => cases hr
  | @token other c₁ c₂ behind =>
    obtain ⟨hlexeme, rfl⟩ := Prod.mk.inj hr
    cases hlexeme
    -- dropping the line once more would lead back to a place in front of the remark
    obtain ⟨hsame, -⟩ := behind.remark hrem
    have hlength := Cursor.scan_length_le hscan
    simp only [Option.isSome_some, if_true] at hlength
    have hskip := c₁.skipLine_length_le
    rw [hsame] at hskip
    omega

theorem of_fill (h : l.Ahead text p) {lexeme : Lexeme} (hfill : l.fill = (.ok (some lexeme), m)) :
    Taken text p lexeme m.cursor ∧ m = ⟨m.cursor, some lexeme, true⟩ := by
  have hshown : ∀ r r', (beyond text p).Filled r r' → r = (.ok (some lexeme), m) → r' = r →
      Taken text p lexeme m.cursor ∧ m = ⟨m.cursor, some lexeme, true⟩ := by
    intro r r' h hr hr'
    cases h with
    | token behind =>
      cases hr
      exact ⟨behind.known, rfl⟩
    | stop => cases hr
    | error => cases hr
    | remark hrem h =>
      cases hr
      cases hr'
      exact absurd h (not_remark hrem)
  exact hshown _ _ h hfill rfl

theorem of_peek (h : l.Ahead text p) {lexeme : Lexeme}
    (hpeek : Parse.peek l = .ok (some lexeme, m)) : Taken text p lexeme m.cursor := by
  unfold Parse.peek Parse.ofLexer Lexer.peek at hpeek
  rcases hfill : l.fill with ⟨e | found, m'⟩
  · rw [hfill] at hpeek
    cases hpeek
  · rw [hfill] at hpeek
    cases hpeek
    exact (h.of_fill hfill).1

theorem of_next (h : l.Ahead text p) {lexeme : Lexeme}
    (hnext : Parse.next l = .ok (some lexeme, m)) :
    Taken text p lexeme m.cursor ∧ m = ⟨m.cursor, some lexeme, false⟩ := by
  unfold Parse.next Parse.ofLexer Lexer.next at hnext
  rcases hfill : l.fill with ⟨e | found, m'⟩
  · rw [hfill] at hnext
    cases hnext
  · rw [hfill] at hnext
    cases hnext
    obtain ⟨htaken, hm⟩ := h.of_fill hfill
    refine ⟨htaken, ?_⟩
    rw [hm]

theorem behind (h : l.Ahead text p) {lexeme : Lexeme}
    (hnext : Parse.next l = .ok (some lexeme, m)) :
    m.Ahead text lexeme.pos.next ∧ m.skipLine.Ahead text lexeme.pos.next := by
  obtain ⟨htaken, hm⟩ := h.of_next hnext
  have hle := Pos.next_le_iff.2 htaken.pos_lt
  rw [hm]
  exact ⟨of_cursor hle htaken.cursor _,
    of_cursor (Pos.le_trans hle m.cursor.le_skipLine_pos) htaken.cursor.skipLine _⟩

end Lexer.Ahead

/-! ### Readers go on -/

/-- Whatever position a lexer is beyond, the other one is beyond it, too. -/
def Lexer.Onward (text : List Char) (l m : Lexer) : Prop :=
  ∀ q, l.Ahead text q → m.Ahead text q

theorem Lexer.Onward.refl (l : Lexer) : l.Onward text l :=
  fun _ h => h

theorem Lexer.Onward.trans {l m k : Lexer} (h : l.Onward text m) (h' : m.Onward text k) :
    l.Onward text k :=
  fun q hq => h' q (h q hq)

/-- A lexer in the middle of a text, with fewer characters to come than there is fuel. -/
structure Lexer.Ready (text : List Char) (n : Nat) (l : Lexer) : Prop where
  ahead : l.Ahead text ⟨0, 0⟩
  size : l.size < n

namespace Lexer.Ready

variable {n n' : Nat} {l m : Lexer}

theorem mono (h : l.Ready text n) (hn : n ≤ n') : l.Ready text n' :=
  ⟨h.ahead, Nat.lt_of_lt_of_le h.size hn⟩

theorem ofSource (source : String) :
    (Lexer.ofSource source).Ready source.toList (source.length + 1) := by
  have hin : (Cursor.ofSource source).In source.toList := Stands.start _
  exact ⟨.of_cursor (.inl Nat.one_pos) hin none, size_ofSource source⟩

end Lexer.Ready

namespace Parse

variable {α : Type} {l m : Lexer}

/-- A reader that goes on in a text. -/
def Advances (text : List Char) (x : Parse α) : Prop :=
  ∀ l a m, x l = .ok (a, m) → l.Onward text m

/-- A reader that does the same on sources side by side goes on in a text beside itself. -/
theorem Advances.of_tracks {x : Parse α} {Q : Pos → α → α → Lexer → Lexer → Prop}
    (h : ∀ q, Coupling.Tracks (beyond text q).Beside x x (Q q))
    (hq : ∀ q a a' m m', Q q a a' m m' → (beyond text q).Beside m m') : Advances text x := by
  intro l a m hrun q hl
  have halike := h q l l hl
  rw [hrun] at halike
  cases halike with
  | ok hr => exact hq q a a m m hr

theorem advances_peek : Advances text peek := by
  refine .of_tracks (fun _ => Coupling.tracks_peek) fun q found found' m m' h => ?_
  cases h with
  | token h => exact h.beside
  | stop h => exact h
  | remark _ _ h => exact h

theorem advances_peekOnLine : Advances text peekOnLine := by
  refine .of_tracks (fun _ => Coupling.tracks_peekOnLine) fun q found found' m m' h => ?_
  cases h with
  | token _ h => exact h.beside
  | none h => exact h
  | remark _ h => exact h

theorem advances_peekToken : Advances text peekToken := by
  refine .of_tracks (fun _ => Coupling.tracks_peekToken) fun q found found' m m' h => ?_
  cases h with
  | token _ h => exact h.beside
  | none h => exact h
  | remark h => exact h

theorem advances_missingPos : Advances text missingPos := by
  intro l pos m hrun
  obtain ⟨found, m', hpeek, hpos⟩ := bind_eq_ok.mp hrun
  have honward : l.Onward text m' := advances_peekOnLine l found m' hpeek
  cases found with
  | some lexeme =>
    cases hpos
    exact honward
  | none =>
    cases hpos
    exact honward

theorem advances_next : Advances text next := by
  intro l found m hnext q hq
  cases found with
  | some lexeme =>
    obtain ⟨htaken, hm⟩ := hq.of_next hnext
    rw [hm]
    exact .of_cursor (Pos.le_trans htaken.le_pos (Pos.le_of_lt htaken.pos_lt)) htaken.cursor _
  | none =>
    have halike := Coupling.tracks_given l l hq
    rw [hnext] at halike
    cases halike with
    | ok h =>
      cases h with
      | @stop c _ ended =>
        change (beyond text q).Filled _ _
        rw [Coupling.fill_at_end ended.2]
        exact .stop ended

theorem onward_skipLine {lexeme : Lexeme} (hnext : next l = .ok (some lexeme, m)) :
    l.Onward text m.skipLine := by
  intro q hq
  obtain ⟨htaken, hm⟩ := hq.of_next hnext
  have hle := Pos.le_trans htaken.le_pos (Pos.le_of_lt htaken.pos_lt)
  rw [hm]
  exact .of_cursor (Pos.le_trans hle m.cursor.le_skipLine_pos) htaken.cursor.skipLine _

end Parse

/-- A reader that extends a draft does the same on a text beside itself, and so it goes on. -/
theorem onward_of_pairs {α : Type} {x : Build α} {n : Nat} {f : Pos → α → α}
    (hx : ∀ q, (beyond text q).Pairs n n (f q) x x) {d d' : Draft} {l l' : Lexer} {a : α}
    (hrun : x d l = .ok ((a, d'), l')) (hready : l.Ready text n) :
    l.Onward text l' ∧ l'.Ready text n := by
  have hmet (q : Pos) {Q : α → α → Lexer → Lexer → Prop} (r r' : Except Error ((α × Draft) × Lexer))
      (h : (beyond text q).Built Q r r') (hr : r = .ok ((a, d'), l'))
      (hr' : r' = .ok ((a, d'), l')) : Q a a l' l' := by
    cases h with
    | ok h =>
      cases hr
      obtain ⟨⟨rfl, -⟩, rfl⟩ : (_ ∧ _) ∧ _ := by simpa using hr'
      exact h
    | error => cases hr
    | further => cases hr
  have hahead (q : Pos) (hq : l.Ahead text q) : l'.Ahead text q ∧ l'.size < n := by
    have hbuilt := hx q d l l ⟨hq, hready.size, hready.size⟩
    rw [show (beyond text q).draft d = d from d.empty_behind_id] at hbuilt
    have hmeets := (hmet q _ _ hbuilt hrun hrun).2
    exact ⟨hmeets.beside, hmeets.size⟩
  exact ⟨fun q hq => (hahead q hq).1, (hahead _ hready.ahead).1, (hahead _ hready.ahead).2⟩

end LineBasic
