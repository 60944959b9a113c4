import LineBasic.Proofs.LexemePlaces

/-!
# Lookahead as a bookmark in the list of tokens

A lexer has one place for a token, which serves two ends: it keeps a token that was looked at or given
back, and it remembers the token that was taken last so that it can be given back. What the place holds
therefore depends on the calls so far. Main statement: if a source has no lexical error, then to its
callers the lexer is a bookmark in the list of its tokens, whatever they call and in whatever order,
as long as they do not start by giving back a token.
-/

namespace LineBasic

set_option autoImplicit false

namespace Lexer

/-- What can be asked of a lexer. -/
inductive Call where
  | next
  | peek
  | pushback
deriving DecidableEq, Repr

/-- What a call gives. -/
inductive Answer where
  | token (found : Option Lexeme)
  | done
  | failed (e : Error)

/-- A call of a lexer. One that fails to give back a token leaves the lexer as it is. -/
def ask (l : Lexer) : Call → Answer × Lexer
  | .next =>
    match l.next with
    | (.ok found, l') => (.token found, l')
    | (.error e, l') => (.failed e, l')
  | .peek =>
    match l.peek with
    | (.ok found, l') => (.token found, l')
    | (.error e, l') => (.failed e, l')
  | .pushback =>
    match l.pushback with
    | .ok l' => (.done, l')
    | .error e => (.failed e, l)

/-- The refusal to give back a token while one is held. -/
def alreadyHeld : Error :=
  { code := .internal, detail := "TOKEN ALREADY PUSHED BACK" }

/-- What a sequence of calls gives, where `ask` answers one call and changes the state. -/
def answersTo {σ : Type} (ask : σ → Call → Answer × σ) : σ → List Call → List Answer
  | _, [] => []
  | s, call :: calls => (ask s call).1 :: answersTo ask (ask s call).2 calls

theorem getElem?_answersTo {σ : Type} (ask : σ → Call → Answer × σ) (s : σ) (before : List Call)
    (call : Call) (after : List Call) :
    (answersTo ask s (before ++ call :: after))[before.length]? =
      some (ask (before.foldl (fun s call => (ask s call).2) s) call).1 := by
  induction before generalizing s with
  | nil => rfl
  | cons first before ih => exact ih (ask s first).2

end Lexer

/-- A place in a list of tokens. -/
structure Bookmark where
  /-- How many tokens are in front of it. -/
  index : Nat := 0
  /-- What was taken last; nothing before the first time and at the end of the list. -/
  taken : Option Lexeme := none
  /-- Whether the token behind it was looked at or given back since one was taken. -/
  held : Bool := false

namespace Bookmark

open Lexer (Call Answer answersTo getElem?_answersTo alreadyHeld)

/-- Looking moves nothing, taking moves on by the token that is taken, and giving back moves back by
it, unless a token is held. -/
def ask (tokens : List Lexeme) (b : Bookmark) : Call → Answer × Bookmark
  | .peek => (.token tokens[b.index]?, { b with held := true })
  | .next =>
    let found := tokens[b.index]?
    (.token found, ⟨b.index + found.toList.length, found, false⟩)
  | .pushback =>
    if b.held then (.failed alreadyHeld, b)
    else (.done, ⟨b.index - b.taken.toList.length, b.taken, true⟩)

theorem held_foldl (tokens : List Lexeme) (b : Bookmark) (calls : List Call) (last : Call) :
    ((calls ++ [last]).foldl (fun b call => (b.ask tokens call).2) b).held =
      decide (last ≠ .next) := by
  rw [List.foldl_append]
  generalize calls.foldl (fun b call => (b.ask tokens call).2) b = b'
  cases last with
  | next => rfl
  | peek => rfl
  | pushback =>
    change (b'.ask tokens .pushback).2.held = true
    rw [ask]
    split
    · assumption
    · rfl

/-! ### What is left to read -/

/-- Reading on from a cursor gives these tokens and then the end of the source. -/
def Leaves (c : Cursor) (tokens : List Lexeme) : Prop :=
  ∃ stop, c.Gives ⟨tokens, none, stop⟩

theorem Leaves.scan {c : Cursor} {tokens : List Lexeme} (h : Leaves c tokens) :
    ∃ c', c.scan = (.ok tokens.head?, c') ∧ Leaves c' tokens.tail := by
  obtain ⟨stop, hgives⟩ := h
  generalize hread : (⟨tokens, none, stop⟩ : Lexed) = read at hgives
  cases hgives with
  | @stop _ c' hscan =>
    cases hread
    exact ⟨c', hscan, _, .stop (Cursor.scan_of_end hscan).2.2⟩
  | failure => cases hread
  | @token _ c' lexeme more hscan hmore =>
    obtain ⟨rfl, hfailure, -⟩ := Lexed.mk.inj hread
    exact ⟨c', hscan, more.stop, hfailure ▸ hmore⟩

/-! ### One call -/

/-- A bookmark and a lexer whose one place is for the token at `i`: either the token is held, and the
bookmark is in front of it, or it was taken, and the bookmark is behind it. At the end of the list
there is no token to be in front of or behind. -/
inductive Marks (tokens : List Lexeme) : Bookmark → Lexer → Prop where
  | held {i : Nat} {c : Cursor} (taken : Option Lexeme) (rest : Leaves c (tokens.drop (i + 1))) :
      Marks tokens ⟨i, taken, true⟩ ⟨c, tokens[i]?, true⟩
  | taken {i : Nat} {c : Cursor} (rest : Leaves c (tokens.drop (i + 1))) :
      Marks tokens ⟨i + tokens[i]?.toList.length, tokens[i]?, false⟩ ⟨c, tokens[i]?, false⟩

/-- A lexer comes to the token at `i` next, and then it holds that token. -/
def ComesTo (tokens : List Lexeme) (i : Nat) (l : Lexer) : Prop :=
  ∃ c, l.fill = (.ok tokens[i]?, ⟨c, tokens[i]?, true⟩) ∧ Leaves c (tokens.drop (i + 1))

/-- A call gives the same for a bookmark and for a lexer, and they stay together. -/
def Agree (tokens : List Lexeme) (b : Bookmark) (l : Lexer) (call : Call) : Prop :=
  (l.ask call).1 = (b.ask tokens call).1 ∧ Marks tokens (b.ask tokens call).2 (l.ask call).2

section

variable {tokens : List Lexeme} {b : Bookmark} {l : Lexer}

theorem comesTo_of_leaves {i : Nat} {c : Cursor} (h : Leaves c (tokens.drop i))
    (last : Option Lexeme) : ComesTo tokens i ⟨c, last, false⟩ := by
  obtain ⟨c', hscan, hrest⟩ := h.scan
  rw [List.head?_drop] at hscan
  rw [List.tail_drop] at hrest
  refine ⟨c', ?_, hrest⟩
  simp [Lexer.fill, hscan]

/-- Whether a token is held or not, the next one is the one behind the bookmark. -/
theorem Marks.comesTo (h : Marks tokens b l) : ComesTo tokens b.index l := by
  cases h with
  | held taken rest => exact ⟨_, rfl, rest⟩
  | @taken i c rest =>
    refine comesTo_of_leaves ?_ _
    cases hfound : tokens[i]? with
    | some lexeme => exact rest
    | none =>
      -- nothing was taken, and there is as little behind the end as behind any place further on
      have hend := List.getElem?_eq_none_iff.mp hfound
      rw [List.drop_eq_nil_of_le (by omega)] at rest
      rwa [Option.toList_none, List.length_nil, Nat.add_zero, List.drop_eq_nil_of_le hend]

theorem ComesTo.next (h : ComesTo tokens b.index l) : Agree tokens b l .next := by
  obtain ⟨c, hfill, hrest⟩ := h
  have hnext : l.next = (.ok tokens[b.index]?, ⟨c, tokens[b.index]?, false⟩) := by
    simp [Lexer.next, hfill]
  rw [Agree, Lexer.ask, hnext]
  exact ⟨rfl, .taken hrest⟩

theorem ComesTo.peek (h : ComesTo tokens b.index l) : Agree tokens b l .peek := by
  obtain ⟨c, hfill, hrest⟩ := h
  rw [Agree, Lexer.ask, Lexer.peek, hfill]
  exact ⟨rfl, .held b.taken hrest⟩

theorem Marks.pushback (h : Marks tokens b l) : Agree tokens b l .pushback := by
  cases h with
  | held taken rest => exact ⟨rfl, .held taken rest⟩
  | @taken i c rest =>
    refine ⟨rfl, ?_⟩
    change Marks tokens ⟨i + tokens[i]?.toList.length - tokens[i]?.toList.length, tokens[i]?, true⟩
      ⟨c, tokens[i]?, true⟩
    rw [Nat.add_sub_cancel]
    exact .held tokens[i]? rest

/-! ### All calls -/

theorem Marks.answersTo_eq (h : Marks tokens b l) (calls : List Call) :
    answersTo Lexer.ask l calls = answersTo (ask tokens) b calls := by
  induction calls generalizing b l with
  | nil => rfl
  | cons call calls ih =>
    have hagree : Agree tokens b l call := by
      cases call with
      | next => exact h.comesTo.next
      | peek => exact h.comesTo.peek
      | pushback => exact h.pushback
    rw [answersTo, answersTo, hagree.1, ih hagree.2]

/-- A lexer that nothing was asked of has no token to give back, but any other call may come first. -/
theorem ComesTo.answersTo_eq (h : ComesTo tokens b.index l) {calls : List Call}
    (hstart : calls.head? ≠ some .pushback) :
    answersTo Lexer.ask l calls = answersTo (ask tokens) b calls := by
  cases calls with
  | nil => rfl
  | cons call calls =>
    have hagree : Agree tokens b l call := by
      cases call with
      | next => exact h.next
      | peek => exact h.peek
      | pushback => exact absurd rfl hstart
    rw [answersTo, answersTo, hagree.1, hagree.2.answersTo_eq]

end

/-- The calls of a lexer give what a bookmark in the list of all tokens gives. A token is refused when
it is given back exactly if the call before looked at one or gave one back. -/
theorem lexer_is_bookmark {source : String} (hlexed : (lex source).failure = none)
    {calls : List Call} (hstart : calls.head? ≠ some .pushback) :
    answersTo Lexer.ask (.ofSource source) calls =
        answersTo (ask (lex source).lexemes) {} calls ∧
      ∀ before after, calls = before ++ .pushback :: after →
        (answersTo Lexer.ask (.ofSource source) calls)[before.length]? =
          some (if before.getLast? = some .next then .done else .failed alreadyHeld) := by
  have hleaves : Leaves (.ofSource source) ((lex source).lexemes.drop 0) :=
    ⟨(lex source).stop, hlexed ▸ Cursor.gives_lex source⟩
  have hanswers : answersTo Lexer.ask (.ofSource source) calls =
      answersTo (ask (lex source).lexemes) {} calls :=
    (comesTo_of_leaves hleaves none).answersTo_eq hstart
  refine ⟨hanswers, ?_⟩
  rintro before after rfl
  rw [hanswers, getElem?_answersTo, ask]
  rcases List.eq_nil_or_concat before with rfl | ⟨front, last, rfl⟩
  · exact absurd rfl hstart
  · rw [List.concat_eq_append, held_foldl, List.getLast?_concat]
    by_cases hlast : last = .next
    · simp [hlast]
    · simp [hlast]

/-- Tokens are given back in front of the end of the source and behind it. -/
theorem lexer_is_bookmark_two :
    let calls : List Call := [.next, .pushback, .pushback, .next, .peek, .pushback, .next, .next,
      .next, .pushback, .next]
    let a : Lexeme := ⟨.ident "a", ⟨1, 1⟩, 2, true⟩
    let b : Lexeme := ⟨.ident "b", ⟨1, 3⟩, 4, false⟩
    (lex "a b").failure = none ∧ calls.head? ≠ some .pushback ∧
    answersTo Lexer.ask (.ofSource "a b") calls =
      [.token a, .done, .failed alreadyHeld, .token a, .token b, .failed alreadyHeld, .token b,
        .token none, .token none, .done, .token none] :=
  ⟨rfl, by decide, (@lexer_is_bookmark "a b" rfl _ (by decide)).1⟩

end Bookmark

end LineBasic
