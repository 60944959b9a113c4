import LineBasic.Proofs.CoupledCode
import LineBasic.Proofs.LineScanning
import Mathlib.Order.Monotone.Basic

/-!
# Texts without some of their lines

Blank lines and lines that start with `#` can be left out of a text, and its line breaks can be written
in another way. What is left has the same tokens, in lines with lower numbers. That also holds inside
of block comments, which such lines neither open nor close.
-/

namespace LineBasic

set_option autoImplicit false

/-- Lines without a token, wherever they stand. -/
def Skipped (line : List Char) : Prop :=
  (∀ c ∈ line, Text.isBlank c = true) ∨ line.head? = some '#'

namespace Cursor

theorem past_skipped {gap : Gap} (h : gap.Marked) {line : List Char} (hline : InLine line)
    (hskip : Skipped line) :
    ∃ next, gap.nextLine.past line = some next ∧ next.nextLine = gap.nextLine := by
  rcases hskip with hblank | hhead
  · refine ⟨gap.nextLine, past_of_steady hline fun c hc => step_blank (hblank c hc), ?_⟩
    cases gap <;> rfl
  · obtain ⟨rest, rfl⟩ := List.head?_eq_some_iff.1 hhead
    have hblank : Text.isBlank '#' = false := by decide
    rw [Gap.past_cons _ hline.head]
    -- the rest of the line is a comment, or the line is one of the block
    have hcode : (Gap.code.step '#' rest).bind (Gap.past · rest) = some .comment := by
      simp only [Gap.step, hblank, Bool.false_eq_true, if_false, if_true, Option.bind_some]
      exact past_comment hline.tail
    cases gap with
    | code => exact ⟨.comment, hcode, rfl⟩
    | comment => exact ⟨.comment, hcode, rfl⟩
    | block mark length fresh =>
      have hmarked : (Gap.block mark length true).Marked := h
      refine ⟨.block mark length false, ?_, rfl⟩
      rw [Gap.nextLine, step_block_text hmarked hblank (by decide), Option.bind_some]
      exact past_passed hline.tail

end Cursor

/-! ### Leaving lines out -/

/-- The rest of a text behind its line number `n`, and what is left of it. The number of lines that
are kept of the first `n` lines is `rank n`. -/
inductive Thinned (rank : Nat → Nat) : Nat → List Char → List Char → Prop where
  | nil {n : Nat} : Thinned rank n [] []
  | kept {n : Nat} {eol line s t : List Char} (heol : IsBreak eol (line ++ s)) (hline : InLine line)
      (hrank : rank (n + 1) = rank n + 1) (h : Thinned rank (n + 1) s t) :
      Thinned rank n (eol ++ (line ++ s)) ('\n' :: (line ++ t))
  | dropped {n : Nat} {eol line s t : List Char} (heol : IsBreak eol (line ++ s)) (hline : InLine line)
      (hskip : Skipped line) (hrank : rank (n + 1) = rank n) (h : Thinned rank (n + 1) s t) :
      Thinned rank n (eol ++ (line ++ s)) t

/-- The line number `n` is one of the lines that are kept. -/
def Kept (rank : Nat → Nat) (n : Nat) : Prop :=
  ∀ k < n, rank k < rank n

/-- Cursors at the same character of a line. -/
inductive Aligned (rank : Nat → Nat) : Cursor → Cursor → Prop where
  | mk {n col : Nat} {line s t : List Char} {lead : Bool} (hline : InLine line)
      (hkept : line ≠ [] → Kept rank n) (h : Thinned rank n s t) :
      Aligned rank ⟨line ++ s, ⟨n, col⟩, lead⟩ ⟨line ++ t, ⟨rank n, col⟩, lead⟩

section

variable {rank : Nat → Nat} {n : Nat} {s t : List Char}

theorem Thinned.endsLine (h : Thinned rank n s t) : EndsLine s := by
  cases h with
  | nil => exact .inl rfl
  | kept heol => exact heol.endsLine
  | dropped heol => exact heol.endsLine

theorem Thinned.endsLine' (h : Thinned rank n s t) : EndsLine t := by
  induction h with
  | nil => exact .inl rfl
  | kept => exact .inr ⟨'\n', _, rfl, rfl⟩
  | dropped _ _ _ _ _ ih => exact ih

theorem kept_succ (hrank : Monotone rank) (h : rank (n + 1) = rank n + 1) : Kept rank (n + 1) := by
  intro k hk
  rw [h]
  exact Nat.lt_succ_of_le (hrank (Nat.le_of_lt_succ hk))

end

namespace Cursor

/-- Where a gap ends in a text and in what is left of it: both come to the end, or to the same
character of a line that is kept. -/
inductive Reached (rank : Nat → Nat) : Cursor → Cursor → Prop where
  | token {n col : Nat} {c : Char} {line s t : List Char} {lead : Bool} (hline : InLine (c :: line))
      (hkept : Kept rank n) (h : Thinned rank n s t) :
      Reached rank ⟨c :: line ++ s, ⟨n, col⟩, lead⟩ ⟨c :: line ++ t, ⟨rank n, col⟩, lead⟩
  | stop {c c' : Cursor} (hrest : c.rest = []) (hrest' : c'.rest = []) : Reached rank c c'

variable {rank : Nat → Nat}

theorem Reached.rest_eq_nil {c c' : Cursor} (h : Reached rank c c') (hrest : c'.rest = []) :
    c.rest = [] := by
  cases h with
  | token => cases hrest
  | stop hrest => exact hrest

theorem reached_of_token {n col : Nat} {gap : Gap} {line s t : List Char} {lead : Bool}
    (hgap : gap.Marked) (hline : InLine line) (hkept : Kept rank n) (h : Thinned rank n s t)
    (hpast : gap.past line = none) :
    Reached rank (skipFrom gap (line ++ s) ⟨n, col⟩ lead)
      (skipFrom gap (line ++ t) ⟨rank n, col⟩ lead) := by
  obtain ⟨k, hk, hskip⟩ := skipFrom_token hgap hline hpast
  rw [hskip s h.endsLine.endsRun, hskip t h.endsLine'.endsRun]
  have hdrop := hline.drop k
  cases hcs : line.drop k with
  | nil => exact absurd (List.drop_eq_nil_iff.1 hcs) (Nat.not_le.2 hk)
  | cons c cs =>
    rw [hcs] at hdrop
    exact .token hdrop hkept h

/-- The two gaps may be different in the current line. -/
theorem reached_skipFrom (hrank : Monotone rank) {n : Nat} {s t : List Char} (h : Thinned rank n s t)
    {gap gap' : Gap} (hgap : gap.Marked) (hgap' : gap'.Marked) (hnext : gap.nextLine = gap'.nextLine)
    {pos pos' : Pos} (hpos : pos.line = n) (hpos' : pos'.line = rank n) (lead lead' : Bool) :
    Reached rank (skipFrom gap s pos lead) (skipFrom gap' t pos' lead') := by
  induction h generalizing gap gap' pos pos' lead lead' with
  | nil => exact .stop rfl rfl
  | @kept n eol line s t heol hline hone h ih =>
    have hlf : skipFrom gap' ('\n' :: (line ++ t)) pos' lead' =
        skipFrom gap.nextLine (line ++ t) ⟨rank (n + 1), 1⟩ true := by
      rw [hnext, hone, ← hpos']
      exact skipFrom_break (.inl rfl) gap' pos' lead'
    rw [skipFrom_break heol, hlf, hpos]
    cases hpast : gap.nextLine.past line with
    | none => exact reached_of_token hgap.nextLine hline (kept_succ hrank hone) h hpast
    | some next =>
      rw [skipFrom_past hgap.nextLine hline h.endsLine.endsRun hpast,
        skipFrom_past hgap.nextLine hline h.endsLine'.endsRun hpast]
      have hmarked := hgap.nextLine.past hline hpast
      exact ih hmarked hmarked rfl rfl rfl true true
  | @dropped n eol line s t heol hline hskip hone h ih =>
    obtain ⟨next, hpast, hsame⟩ := past_skipped hgap hline hskip
    rw [skipFrom_break heol, skipFrom_past hgap.nextLine hline h.endsLine.endsRun hpast]
    exact ih (hgap.nextLine.past hline hpast) hgap' (hsame.trans hnext) (by rw [← hpos])
      (by rw [hpos', hone]) true lead'

theorem reached_skipGap (hrank : Monotone rank) {c c' : Cursor} (h : Aligned rank c c') :
    Reached rank c.skipGap c'.skipGap := by
  cases h with
  | @mk n col line s t lead hline hkept h =>
    have hcode : Gap.code.Marked := trivial
    show Reached rank (skipFrom .code (line ++ s) ⟨n, col⟩ lead)
      (skipFrom .code (line ++ t) ⟨rank n, col⟩ lead)
    cases hpast : Gap.code.past line with
    | none =>
      refine reached_of_token hcode hline (hkept ?_) h hpast
      rintro rfl
      cases hpast
    | some next =>
      have hmarked := hcode.past hline hpast
      rw [skipFrom_past hcode hline h.endsLine.endsRun hpast,
        skipFrom_past hcode hline h.endsLine'.endsRun hpast]
      exact reached_skipFrom hrank h hmarked hmarked rfl rfl rfl lead lead

end Cursor

/-! ### The tokens that are left -/

/-- A position in the text that is left. -/
def Pos.thin (rank : Nat → Nat) (pos : Pos) : Pos :=
  ⟨rank pos.line, pos.col⟩

section

variable {rank : Nat → Nat}

theorem Aligned.skipLine {c c' : Cursor} (h : Aligned rank c c') :
    Aligned rank c.skipLine c'.skipLine := by
  cases h with
  | @mk n col line s t lead hline hkept h =>
    simp only [Cursor.skipLine, Cursor.takeWhile_line hline h.endsLine,
      Cursor.takeWhile_line hline h.endsLine', Cursor.advance, List.drop_left]
    exact @Aligned.mk rank n _ [] s t lead inLine_nil (fun hne => absurd rfl hne) h

theorem scanned_of_reached {c c' : Cursor} (hreached : Cursor.Reached rank c.skipGap c'.skipGap) :
    Coupling.Scanned (Pos.thin rank) (fun lexeme _ => Kept rank lexeme.pos.line) (Aligned rank)
      (fun c c' => c.rest = [] ∧ c'.rest = []) none c.scan c'.scan := by
  have hapart {lexeme : Lexeme} {d : Cursor} (hscan : c'.scan = (.ok (some lexeme), d)) :=
    fun after d' => @Cursor.touches_eq_false_of_lead c' d d' lexeme after hscan
  rw [Cursor.scan_eq] at hapart
  rw [Cursor.scan_eq, Cursor.scan_eq]
  generalize c.skipGap = start at hreached
  generalize c'.skipGap = start' at hreached hapart
  cases hreached with
  | stop hrest hrest' =>
    rw [Cursor.scanAt, Cursor.scanAt, hrest, hrest']
    exact .agreed (.stop ⟨hrest, hrest'⟩)
  | @token n col ch line s t lead hline hkept h =>
    cases hresult : (Cursor.readToken ch line).result with
    | error detail =>
      obtain ⟨e, d, hscan, hcode⟩ := Cursor.scanAt_line_error hresult h.endsLine ⟨n, col⟩ lead
      obtain ⟨e', d', hscan', hcode'⟩ :=
        Cursor.scanAt_line_error hresult h.endsLine' ⟨rank n, col⟩ lead
      rw [hscan, hscan']
      exact .error (hcode.trans hcode'.symm)
    | ok token =>
      have hscan' := Cursor.scanAt_run hresult h.endsLine'.endsRun ⟨rank n, col⟩ lead
      have happ := hapart hscan'
      rw [Cursor.scanAt_run hresult h.endsLine.endsRun, hscan']
      have haligned : Aligned rank
          ⟨(ch :: line).drop (Cursor.readToken ch line).used ++ s,
            ⟨n, col + (Cursor.readToken ch line).used⟩, false⟩
          ⟨(ch :: line).drop (Cursor.readToken ch line).used ++ t,
            ⟨rank n, col + (Cursor.readToken ch line).used⟩, false⟩ :=
        .mk (hline.drop _) (fun _ => hkept) h
      exact .agreed (.token ⟨hkept, happ, fun _ => haligned.skipLine, fun _ => haligned⟩)

theorem touches_thin {a b : Lexeme} (ha : Kept rank a.pos.line) (hb : Kept rank b.pos.line) :
    (a.mapPos (Pos.thin rank)).touches (b.mapPos (Pos.thin rank)) = a.touches b := by
  have hline : rank a.pos.line = rank b.pos.line ↔ a.pos.line = b.pos.line := by
    refine ⟨fun hsame => ?_, congrArg rank⟩
    rcases Nat.lt_trichotomy a.pos.line b.pos.line with hlt | heq | hlt
    · exact absurd hsame (Nat.ne_of_lt (hb _ hlt))
    · exact heq
    · exact absurd hsame.symm (Nat.ne_of_lt (ha _ hlt))
  rw [Bool.eq_iff_iff]
  simp [Lexeme.touches, Lexeme.mapPos, Pos.thin, hline]

/-- A text and what is left of it. -/
def thinning (rank : Nat → Nat) (hrank : Monotone rank) : Coupling where
  move := Pos.thin rank
  Known lexeme _ := Kept rank lexeme.pos.line
  Linked := Aligned rank
  Ended c c' := c.rest = [] ∧ c'.rest = []
  scanned h := scanned_of_reached (Cursor.reached_skipGap hrank h)
  touches := touches_thin
  ended h := ⟨Cursor.scan_of_nil h.1, fun _ => Cursor.scan_of_nil h.2⟩

end

end LineBasic
