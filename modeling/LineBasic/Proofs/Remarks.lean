import Mathlib.Data.List.Basic
import LineBasic.Proofs.CoupledCode
import LineBasic.Proofs.LineScanning

/-!
# A remark at the end of a line

A remark is a word that drops the rest of its line. The scanner knows nothing of it, so a remark can
stand wherever the line could end, and it is for the reader of statements to take it. Main statement:
with a remark in front of a line break a program stays the same, unless the next line starts with
`else`.
-/

namespace LineBasic

set_option autoImplicit false

namespace Cursor

/-! ### Texts that can be read token by token -/

/-- The tokens of a text that starts in a gap can all be read, and the text ends in the gap `last`. -/
inductive Lexes (last : Gap) : Gap → List Char → Prop where
  | stop {gap : Gap} {cs : List Char} (h : gap.past cs = some last) : Lexes last gap cs
  | token {gap : Gap} {cs ds : List Char} {ch : Char} {token : Token}
      (hskip : ∀ pos lead, (skipFrom gap cs pos lead).rest = ch :: ds)
      (hread : (readToken ch ds).result = .ok token)
      (h : Lexes last .code ((ch :: ds).drop (readToken ch ds).used)) : Lexes last gap cs

/-- Whether a text that is read token by token ends in a block comment. -/
def endsInBlock : Nat → Cursor → Bool
  | 0, _ => false
  | n + 1, c =>
    match c.scan with
    | (.ok (some _), c') => endsInBlock n c'
    | _ => match Gap.code.past c.rest with
      | some (.block _ _ _) => true
      | _ => false

theorem skipFrom_rest_eq (gap : Gap) (cs : List Char) (pos pos' : Pos) (lead lead' : Bool) :
    (skipFrom gap cs pos lead).rest = (skipFrom gap cs pos' lead').rest := by
  fun_induction skipFrom gap cs pos lead generalizing pos' lead' with
  | case1 => rfl
  | case2 gap pos lead cs ih => exact ih ⟨pos'.line + 1, 1⟩ true
  | case3 gap pos lead c cs hcrlf hc ih =>
    rw [skipFrom.eq_3 _ _ _ _ _ hcrlf, if_pos hc]
    exact ih ⟨pos'.line + 1, 1⟩ true
  | case4 gap pos lead c cs hcrlf hc next hstep ih =>
    rw [skipFrom.eq_3 _ _ _ _ _ hcrlf, if_neg hc, hstep]
    exact ih ⟨pos'.line, pos'.col + 1⟩ lead'
  | case5 gap pos lead c cs hcrlf hc hstep =>
    rw [skipFrom.eq_3 _ _ _ _ _ hcrlf, if_neg hc, hstep]

theorem lexes_of_collect (n : Nat) {c : Cursor} (hn : c.rest.length < n) (held : Option Lexeme)
    (hlex : (Lexer.collect n ⟨c, held, false⟩).failure = none) (hblock : c.endsInBlock n = false) :
    ∃ last, last.nextLine = .code ∧ Lexes last .code c.rest := by
  induction n generalizing c held with
  | zero => exact absurd hn (Nat.not_lt_zero _)
  | succ n ih =>
    rw [endsInBlock] at hblock
    simp only [Lexer.collect, Lexer.next, Lexer.fill, Bool.false_eq_true, if_false] at hlex
    rcases hscan : c.scan with ⟨e | _ | lexeme, c'⟩
    · rw [hscan] at hlex
      cases hlex
    · rw [hscan] at hblock
      obtain ⟨rfl, hrest, -⟩ := scan_of_end hscan
      obtain ⟨last, hpast⟩ := Option.isSome_iff_exists.1 ((skipFrom_rest_eq_nil ..).1 hrest)
      rw [hpast] at hblock
      refine ⟨last, ?_, .stop hpast⟩
      cases last with
      | block => cases hblock
      | _ => rfl
    · rw [hscan] at hlex hblock
      obtain ⟨ch, cs, hrest, hread, -, -, hc'⟩ := scan_of_token hscan
      have hlength := scan_length_le hscan
      simp only [Option.isSome_some, if_true] at hlength
      have hshort : c'.rest.length < n := by omega
      obtain ⟨last, hlast, hlexes⟩ := ih hshort _ hlex hblock
      refine ⟨last, hlast, .token (fun pos lead => ?_) hread ?_⟩
      · rw [← hrest]
        exact skipFrom_rest_eq ..
      · rwa [hc', advance, hrest] at hlexes

theorem Lexes.behind_line {last gap : Gap} {line eol more : List Char}
    (h : Lexes last gap (line ++ (eol ++ more))) (hgap : gap.Marked) (hline : InLine line)
    (heol : IsBreak eol more) :
    ∃ next : Gap, next.Marked ∧ next.nextLine = next ∧ Lexes last next more := by
  have hends := heol.endsLine.endsRun
  generalize hcs : line ++ (eol ++ more) = cs at h
  induction h generalizing line with
  | @stop gap cs h =>
    subst hcs
    rw [Gap.past_append hgap hline hends] at h
    obtain ⟨mid, hpast, h⟩ := Option.bind_eq_some_iff.1 h
    rw [Gap.past_break heol] at h
    exact ⟨mid.nextLine, (hgap.past hline hpast).nextLine, mid.nextLine_nextLine, .stop h⟩
  | @token gap cs ds ch token hskip hread h ih =>
    subst hcs
    cases hpast : gap.past line with
    | some mid =>
      refine ⟨mid.nextLine, (hgap.past hline hpast).nextLine, mid.nextLine_nextLine,
        .token (fun pos lead => ?_) hread h⟩
      rw [← hskip ⟨1, 1⟩ true, skipFrom_past hgap hline hends hpast, skipFrom_break heol]
      exact skipFrom_rest_eq ..
    | none =>
      -- the token is in the line, and what is left of the line follows it
      obtain ⟨k, hk, hfound⟩ := skipFrom_token hgap hline hpast
      cases hdrop : line.drop k with
      | nil => exact absurd (List.drop_eq_nil_iff.1 hdrop) (Nat.not_le.2 hk)
      | cons d w =>
        have hrest : d :: (w ++ (eol ++ more)) = ch :: ds := by
          rw [← hskip ⟨1, 1⟩ true, hfound _ hends, hdrop]
          rfl
        obtain ⟨rfl, rfl⟩ := List.cons.inj hrest
        have hsame := readToken_line d w heol.endsLine
        have hused : (readToken d w).used ≤ (d :: w).length :=
          readToken_used_le (hsame ▸ hread)
        have hinLine : InLine (d :: w) := hdrop ▸ hline.drop k
        refine ih trivial (hinLine.drop (readToken d w).used) ?_
        rw [hsame, ← List.drop_append_of_le_length hused]
        rfl

theorem head?_of_runLength {mark : Char} {cs : List Char} (h : 0 < runLength mark cs) :
    cs.head? = some mark := by
  cases cs with
  | nil => cases h
  | cons c cs =>
    by_cases hc : c = mark
    · rw [hc, List.head?_cons]
    · rw [runLength, List.takeWhile_cons_of_neg (by simpa using hc)] at h
      cases h

/-- A line that ends a block comment would open one where there is none. -/
theorem past_code_of_closed {mark : Char} {length : Nat} {last : Gap} {line : List Char}
    (hgap : (Gap.block mark length true).Marked) (hline : InLine line)
    (h : (Gap.block mark length true).past line = some last) (hlast : last.nextLine = .code) :
    ∃ next, Gap.code.past line = some next := by
  induction line with
  | nil =>
    cases h
    cases hlast
  | cons c cs ih =>
    rw [Gap.past_cons _ hline.head] at h ⊢
    by_cases hblank : Text.isBlank c = true
    · simp only [Gap.step, hblank, Bool.and_true, if_true, Option.bind_some] at h ⊢
      exact ih hline.tail h
    · rw [Bool.not_eq_true] at hblank
      by_cases hrun : runLength mark (c :: cs) = length
      · have hlength : blockRun ≤ runLength mark (c :: cs) := hrun ▸ hgap.2
        obtain rfl : c = mark :=
          Option.some.inj (head?_of_runLength (Nat.lt_of_lt_of_le (by decide) hlength))
        have hhead : cs.head? = some c := by
          refine head?_of_runLength ?_
          rw [runLength, List.takeWhile_cons_of_pos (by simp), List.length_cons, blockRun] at hlength
          rw [runLength]
          omega
        have hhash : c ≠ '#' := by
          rcases hgap.1 with rfl | rfl <;> decide
        have hstep : Gap.code.step c cs = some (.block c (runLength c (c :: cs)) false) := by
          simp only [Gap.step, hblank, Bool.false_eq_true, if_false, hhash, hgap.1, hhead, and_self,
            if_true, hlength]
        rw [hstep, Option.bind_some, past_passed hline.tail]
        exact ⟨_, rfl⟩
      · simp only [Gap.step, hblank, Bool.and_false, Bool.false_eq_true, if_false,
          beq_false_of_ne hrun, Option.bind_some, past_passed hline.tail] at h
        cases h
        cases hlast

/-- In a comment no token starts before the next line. -/
theorem past_of_ne_code {gap : Gap} (hgap : gap ≠ .code) {line : List Char} (hline : InLine line) :
    ∃ next, gap.past line = some next ∧ next ≠ .code := by
  induction line generalizing gap with
  | nil => exact ⟨gap, rfl, hgap⟩
  | cons c cs ih =>
    have hstep : ∃ next, gap.step c cs = some next ∧ next ≠ .code := by
      cases gap with
      | code => exact absurd rfl hgap
      | comment => exact ⟨.comment, rfl, by simp⟩
      | block mark length fresh =>
        simp only [Gap.step]
        split
        · exact ⟨_, rfl, by simp⟩
        · split
          · exact ⟨_, rfl, by simp⟩
          · exact ⟨_, rfl, by simp⟩
    obtain ⟨mid, hstep, hmid⟩ := hstep
    obtain ⟨next, hpast, hnext⟩ := ih hmid hline.tail
    rw [Gap.past_cons gap hline.head, hstep, Option.bind_some]
    exact ⟨next, hpast, hnext⟩

theorem eq_code_of_past {gap : Gap} {line : List Char} (hline : InLine line)
    (h : gap.past line = none) : gap = .code := by
  refine Classical.byContradiction fun hgap => ?_
  obtain ⟨next, hnext, -⟩ := past_of_ne_code hgap hline
  rw [h] at hnext
  cases hnext

/-- At the start of the last line nothing is open that the line could not start with. -/
theorem Lexes.of_lineStart {last gap : Gap} {line : List Char} (h : Lexes last gap line)
    (hline : InLine line) (hgap : gap.Marked) (hstart : gap.nextLine = gap)
    (hlast : last.nextLine = .code) : ∃ next, Lexes next .code line := by
  cases gap with
  | code => exact ⟨last, h⟩
  | comment => cases hstart
  | block mark length fresh =>
    cases hstart
    cases h with
    | stop h =>
      obtain ⟨next, hnext⟩ := past_code_of_closed hgap hline h hlast
      exact ⟨next, .stop hnext⟩
    | token hskip =>
      have hgap : Gap.block mark length true ≠ .code := by simp
      obtain ⟨next, hpast, -⟩ := past_of_ne_code hgap hline
      have hrest := (skipFrom_rest_eq_nil _ line ⟨1, 1⟩ true).2 (Option.isSome_of_eq_some hpast)
      rw [hskip] at hrest
      cases hrest

end Cursor

/-! ### Two texts that differ by a remark -/

/-- What follows the first text: a remark and the second text. -/
def remarked (t b : List Char) : List Char :=
  ' ' :: 'r' :: 'e' :: 'm' :: ' ' :: (t ++ '\n' :: b)

/-- The two texts from a line break on that is in their common part. -/
inductive Joined (t b : List Char) : List Char → List Char → Prop where
  | last {gap : Cursor.Gap} {eol line : List Char} (heol : IsBreak eol (line ++ remarked t b))
      (heol' : IsBreak eol (line ++ '\n' :: b)) (hline : InLine line)
      (hlexes : Cursor.Lexes gap .code line) :
      Joined t b (eol ++ (line ++ remarked t b)) (eol ++ (line ++ '\n' :: b))
  | line {eol line s s' : List Char} (heol : IsBreak eol (line ++ s)) (heol' : IsBreak eol (line ++ s'))
      (hline : InLine line) (h : Joined t b s s') : Joined t b (eol ++ (line ++ s)) (eol ++ (line ++ s'))

/-- Cursors in the two texts: before the last line of the first text, in it, or behind it. -/
inductive Abreast (t b : List Char) : Cursor → Cursor → Prop where
  | before {line s s' : List Char} {pos : Pos} {lead : Bool} (hline : InLine line)
      (h : Joined t b s s') : Abreast t b ⟨line ++ s, pos, lead⟩ ⟨line ++ s', pos, lead⟩
  | last {gap : Cursor.Gap} {line : List Char} {pos : Pos} {lead : Bool} (hline : InLine line)
      (hlexes : Cursor.Lexes gap .code line) :
      Abreast t b ⟨line ++ remarked t b, pos, lead⟩ ⟨line ++ '\n' :: b, pos, lead⟩
  | behind {c c' : Cursor} (h : c.skipGap = c'.skipGap) : Abreast t b c c'

/-- Where a gap ends in the two texts. -/
inductive Met (t b : List Char) : Cursor → Cursor → Prop where
  | line {ch : Char} {line s s' : List Char} {pos : Pos} {lead : Bool} (hline : InLine (ch :: line))
      (h : Joined t b s s') : Met t b ⟨ch :: line ++ s, pos, lead⟩ ⟨ch :: line ++ s', pos, lead⟩
  | last {gap : Cursor.Gap} {ch : Char} {line : List Char} {token : Token} {pos : Pos} {lead : Bool}
      (hline : InLine (ch :: line)) (hread : (Cursor.readToken ch line).result = .ok token)
      (hlexes : Cursor.Lexes gap .code ((ch :: line).drop (Cursor.readToken ch line).used)) :
      Met t b ⟨ch :: line ++ remarked t b, pos, lead⟩ ⟨ch :: line ++ '\n' :: b, pos, lead⟩
  | remark {pos : Pos} {lead : Bool} :
      Met t b ⟨'r' :: 'e' :: 'm' :: ' ' :: (t ++ '\n' :: b), pos, lead⟩
        (Cursor.skipFrom .code b ⟨pos.line + 1, 1⟩ true)
  | same {c : Cursor} : Met t b c c

section

variable {t b s s' : List Char}

theorem Joined.endsLine (h : Joined t b s s') : EndsLine s ∧ EndsLine s' := by
  cases h with
  | last heol heol' => exact ⟨heol.endsLine, heol'.endsLine⟩
  | line heol heol' => exact ⟨heol.endsLine, heol'.endsLine⟩

theorem endsRun_remarked : EndsRun (remarked t b) :=
  .inr ⟨' ', _, rfl, .inr (.inr rfl)⟩

theorem endsLine_feed : EndsLine ('\n' :: b) :=
  .inr ⟨'\n', b, rfl, rfl⟩

open Cursor

/-- In a comment a remark is a part of it. -/
theorem skipFrom_remarked {gap : Gap} (hgap : gap.Marked) (hcode : gap ≠ .code) (ht : InLine t)
    (pos : Pos) (lead : Bool) :
    skipFrom gap (remarked t b) pos lead = skipFrom gap ('\n' :: b) pos lead := by
  have hbreak : IsBreak ['\n'] b := .inl rfl
  have hline : InLine (' ' :: 'r' :: 'e' :: 'm' :: ' ' :: t) :=
    .cons rfl (.cons rfl (.cons rfl (.cons rfl (.cons rfl ht))))
  have hpast : ∃ next, gap.past (' ' :: 'r' :: 'e' :: 'm' :: ' ' :: t) = some next ∧
      next.nextLine = gap.nextLine := by
    cases gap with
    | code => exact absurd rfl hcode
    | comment => exact ⟨.comment, past_comment hline, rfl⟩
    | block mark length fresh =>
      -- the blank may leave the line fresh, the word does not
      have hmarked (fresh : Bool) : (Gap.block mark length fresh).Marked := hgap
      have hblank : ∃ fresh', (Gap.block mark length fresh).step ' ' ('r' :: 'e' :: 'm' :: ' ' :: t) =
          some (.block mark length fresh') := by
        cases fresh with
        | true => exact ⟨true, @step_blank (.block mark length true) ' ' (by decide) _⟩
        | false => exact ⟨false, by simp [Gap.step]⟩
      obtain ⟨fresh', hblank⟩ := hblank
      refine ⟨.block mark length false, ?_, rfl⟩
      rw [Gap.past_cons _ hline.head, hblank, Option.bind_some, Gap.past_cons _ hline.tail.head,
        step_block_text (hmarked fresh') (by decide) (by decide), Option.bind_some]
      exact past_passed hline.tail.tail
  obtain ⟨next, hpast, hnext⟩ := hpast
  have hskip := skipFrom_past hgap hline hbreak.endsLine.endsRun hpast pos lead
  rw [skipFrom_break hbreak, hnext] at hskip
  exact hskip.trans (skipFrom_break hbreak gap pos lead).symm

theorem met_line {gap : Gap} (hgap : gap.Marked) {line : List Char} (hline : InLine line)
    (h : Joined t b s s')
    (hnext : ∀ next : Gap, next.Marked → ∀ pos lead,
      Met t b (skipFrom next s pos lead) (skipFrom next s' pos lead)) (pos : Pos) (lead : Bool) :
    Met t b (skipFrom gap (line ++ s) pos lead) (skipFrom gap (line ++ s') pos lead) := by
  have hends := h.endsLine.1.endsRun
  have hends' := h.endsLine.2.endsRun
  cases hpast : gap.past line with
  | some next =>
    rw [skipFrom_past hgap hline hends hpast, skipFrom_past hgap hline hends' hpast]
    exact hnext next (hgap.past hline hpast) _ _
  | none =>
    obtain ⟨k, hk, hskip⟩ := skipFrom_token hgap hline hpast
    rw [hskip _ hends, hskip _ hends']
    have hinLine := hline.drop k
    cases hdrop : line.drop k with
    | nil => exact absurd (List.drop_eq_nil_iff.1 hdrop) (Nat.not_le.2 hk)
    | cons ch cs =>
      rw [hdrop] at hinLine
      exact .line hinLine h

/-- Where no comment is open the remark is the next token. -/
theorem skipFrom_code_remarked (pos : Pos) (lead : Bool) :
    skipFrom .code (remarked t b) pos lead =
      ⟨'r' :: 'e' :: 'm' :: ' ' :: (t ++ '\n' :: b), ⟨pos.line, pos.col + 1⟩, lead⟩ := by
  have hblank : Text.isBlank ' ' = true := by decide
  have hword : Text.isBlank 'r' = false := by decide
  have hgap (cs : List Char) : Gap.code.step ' ' cs = some .code := by simp [Gap.step, hblank]
  have hstart (cs : List Char) : Gap.code.step 'r' cs = none := by simp [Gap.step, hword]
  rw [remarked, skipFrom_cons _ rfl, hgap, Option.map_some, Option.getD_some, skipFrom_cons _ rfl,
    hstart]
  rfl

theorem met_last {gap last : Gap} (hgap : gap.Marked) (ht : InLine t) {line : List Char}
    (hline : InLine line) (hlexes : Lexes last .code line) (pos : Pos) (lead : Bool) :
    Met t b (skipFrom gap (line ++ remarked t b) pos lead)
      (skipFrom gap (line ++ '\n' :: b) pos lead) := by
  have hfeed : EndsRun ('\n' :: b) := endsLine_feed.endsRun
  cases hpast : gap.past line with
  | some next =>
    rw [skipFrom_past hgap hline endsRun_remarked hpast, skipFrom_past hgap hline hfeed hpast]
    by_cases hcode : next = .code
    · subst hcode
      have hbreak : IsBreak ['\n'] b := .inl rfl
      have hskip := skipFrom_break hbreak .code ⟨pos.line, pos.col + line.length⟩ lead
      rw [List.singleton_append] at hskip
      rw [skipFrom_code_remarked, hskip]
      exact .remark
    · rw [skipFrom_remarked (hgap.past hline hpast) hcode ht]
      exact .same
  | none =>
    obtain rfl := eq_code_of_past hline hpast
    obtain ⟨k, -, hskip⟩ := skipFrom_token hgap hline hpast
    rw [hskip _ endsRun_remarked, hskip _ hfeed]
    cases hlexes with
    | stop h =>
      rw [hpast] at h
      cases h
    | @token _ _ ds ch token hfound hread hlexes =>
      have hdrop : line.drop k = ch :: ds := by
        rw [← hfound ⟨1, 1⟩ true, ← List.append_nil line, hskip _ (.inl rfl), List.append_nil,
          List.append_nil]
      have hinLine := hline.drop k
      rw [hdrop] at hinLine ⊢
      exact .last hinLine hread hlexes

theorem met_skipFrom (h : Joined t b s s') {gap : Gap} (hgap : gap.Marked) (ht : InLine t) (pos : Pos)
    (lead : Bool) : Met t b (skipFrom gap s pos lead) (skipFrom gap s' pos lead) := by
  induction h generalizing gap pos lead with
  | last heol heol' hline hlexes =>
    rw [skipFrom_break heol, skipFrom_break heol']
    exact met_last hgap.nextLine ht hline hlexes ⟨pos.line + 1, 1⟩ true
  | @line eol line s s' heol heol' hline h ih =>
    rw [skipFrom_break heol, skipFrom_break heol']
    exact met_line hgap.nextLine hline h (fun next hnext pos lead => ih hnext pos lead) ..

/-! ### Putting the texts together -/

theorem IsBreak.append {eol more : List Char} (h : IsBreak eol more)
    (hlast : (eol ++ more).getLast? ≠ some '\r') (rest : List Char) : IsBreak eol (more ++ rest) := by
  rcases h with h | h | ⟨rfl, hmore⟩
  · exact .inl h
  · exact .inr (.inl h)
  · cases more with
    | nil => exact absurd rfl hlast
    | cons c more => exact .inr (.inr ⟨rfl, hmore⟩)

theorem getLast?_ne_of_append {xs ys : List Char} (h : (xs ++ ys).getLast? ≠ some '\r') :
    ys.getLast? ≠ some '\r' := by
  intro hys
  rw [List.getLast?_append, hys] at h
  exact h rfl

theorem joined_of_lexes (n : Nat) {cs eol : List Char} (hn : cs.length < n) {last gap : Gap}
    (hlexes : Lexes last gap cs) (hlast : last.nextLine = .code) (hgap : gap.Marked)
    (hstart : gap.nextLine = gap) (hreturn : cs.getLast? ≠ some '\r')
    (heol : ∀ rest, IsBreak eol (cs ++ rest)) :
    Joined t b (eol ++ (cs ++ remarked t b)) (eol ++ (cs ++ '\n' :: b)) := by
  induction n generalizing cs eol gap with
  | zero => exact absurd hn (Nat.not_lt_zero _)
  | succ n ih =>
    rcases inLine_or_break cs with hline | ⟨line, eol', more, hline, hbreak, rfl⟩
    · obtain ⟨next, hnext⟩ := hlexes.of_lineStart hline hgap hstart hlast
      exact .last (heol _) (heol _) hline hnext
    · obtain ⟨next, hnext, hsame, hmore⟩ := hlexes.behind_line hgap hline hbreak
      have hlength : more.length < n := by
        have hpos : 0 < eol'.length := by
          rcases hbreak with rfl | rfl | ⟨rfl, -⟩ <;> decide
        simp only [List.length_append] at hn
        omega
      have hends := getLast?_ne_of_append hreturn
      have hjoined := ih hlength hmore hnext hsame (getLast?_ne_of_append hends) (hbreak.append hends)
      have hassoc (rest : List Char) :
          line ++ (eol' ++ more) ++ rest = line ++ (eol' ++ (more ++ rest)) := by simp
      simp only [hassoc] at heol ⊢
      exact .line (heol _) (heol _) hline hjoined

/-! ### Programs without unreadable tokens -/

end

/-- The tokens of a text can be read up to its end, where the rest of a line with a remark is
dropped. -/
inductive Cursor.Sound : Cursor → Prop where
  | stop {c c' : Cursor} (h : c.scan = (.ok none, c')) : Sound c
  | token {c c' : Cursor} {lexeme : Lexeme} (h : c.scan = (.ok (some lexeme), c'))
      (hrem : lexeme.token ≠ .word .rem) (hsound : Sound c') : Sound c
  | remark {c c' : Cursor} {lexeme : Lexeme} (h : c.scan = (.ok (some lexeme), c'))
      (hrem : lexeme.token = .word .rem) (hsound : Sound c'.skipLine) : Sound c

namespace Cursor.Sound

variable {c c' : Cursor}

theorem behind (h : c.Sound) {lexeme : Lexeme} (hscan : c.scan = (.ok (some lexeme), c')) :
    (lexeme.token = .word .rem → c'.skipLine.Sound) ∧ (lexeme.token ≠ .word .rem → c'.Sound) := by
  cases h with
  | stop h =>
    rw [hscan] at h
    cases h
  | token h hrem hsound =>
    rw [hscan] at h
    cases h
    exact ⟨fun hword => absurd hword hrem, fun _ => hsound⟩
  | remark h hrem hsound =>
    rw [hscan] at h
    cases h
    exact ⟨fun _ => hsound, fun hword => absurd hrem hword⟩

theorem exists_ok (h : c.Sound) : ∃ found c', c.scan = (.ok found, c') := by
  cases h with
  | stop h => exact ⟨_, _, h⟩
  | token h => exact ⟨_, _, h⟩
  | remark h => exact ⟨_, _, h⟩

theorem congr (hscan : c.scan = c'.scan) (h : c.Sound) : c'.Sound := by
  cases h with
  | stop h => exact .stop (hscan ▸ h)
  | token h hrem hsound => exact .token (hscan ▸ h) hrem hsound
  | remark h hrem hsound => exact .remark (hscan ▸ h) hrem hsound

end Cursor.Sound

/-- A text beside itself, with an unreadable token to come. -/
def unsound : Coupling where
  move := id
  Known _ _ := True
  Linked c c' := c = c' ∧ ¬c.Sound
  Ended _ _ := False
  scanned := by
    rintro c _ ⟨rfl, hunsound⟩
    rcases hscan : c.scan with ⟨e | _ | lexeme, c'⟩
    · exact .error rfl
    · exact absurd (.stop hscan) hunsound
    · refine .agreed (@Coupling.Agreed.token id _ _ _ _ lexeme c' c' ⟨trivial, ?_, ?_, ?_⟩)
      · exact fun after c₁ => Cursor.touches_eq_false_of_lead hscan
      · exact fun hrem => ⟨rfl, fun hsound => hunsound (.remark hscan hrem hsound)⟩
      · exact fun hrem => ⟨rfl, fun hsound => hunsound (.token hscan hrem hsound)⟩
  touches := @Coupling.touches_id
  ended := False.elim

theorem cursor_sound_of_parse {source : String} {code : Code} (h : parse source = .ok code) :
    (Cursor.ofSource source).Sound := by
  refine Classical.byContradiction fun hunsound => ?_
  have hlinked : unsound.Linked (Cursor.ofSource source) (Cursor.ofSource source) := ⟨rfl, hunsound⟩
  obtain ⟨_, -, -, _, _, hended⟩ | ⟨e, _, herror, -⟩ :=
    Coupling.parse_coupled (Coupling.beside_of_linked hlinked none none) rfl rfl
  · exact hended
  · rw [h] at herror
    cases herror

/-! ### Reading over a remark -/

section

variable {t b : List Char}

open Cursor

/-- The cursors of two texts of which at least one can be read. -/
def Remarkable (t b : List Char) (c c' : Cursor) : Prop :=
  Abreast t b c c' ∧ (c.Sound ∨ c'.Sound)

def AtEnds (c c' : Cursor) : Prop :=
  c.scan = (.ok none, c) ∧ c'.scan = (.ok none, c')

theorem abreast_skipLine {s s' line : List Char} (hline : InLine line) (h : Joined t b s s') (pos : Pos)
    (lead : Bool) :
    Abreast t b (skipLine ⟨line ++ s, pos, lead⟩) (skipLine ⟨line ++ s', pos, lead⟩) := by
  simp only [skipLine, takeWhile_line hline h.endsLine.1, takeWhile_line hline h.endsLine.2, advance,
    List.drop_left]
  exact @Abreast.before t b [] s s' _ lead inLine_nil h

theorem skipGap_feed (cs : List Char) (pos : Pos) (lead : Bool) :
    skipGap ⟨'\n' :: cs, pos, lead⟩ = skipFrom .code cs ⟨pos.line + 1, 1⟩ true :=
  skipFrom_break (.inl rfl) .code pos lead

theorem skipGap_skipLine {line : List Char} (hline : InLine line) (cs : List Char) (pos : Pos)
    (lead : Bool) :
    (skipLine ⟨line ++ '\n' :: cs, pos, lead⟩).skipGap = skipFrom .code cs ⟨pos.line + 1, 1⟩ true := by
  simp only [skipLine, takeWhile_line hline endsLine_feed, advance, List.drop_left]
  exact skipGap_feed cs _ lead

theorem abreast_skipLine_last (ht : InLine t) {line : List Char} (hline : InLine line) (pos : Pos)
    (lead : Bool) :
    Abreast t b (skipLine ⟨line ++ remarked t b, pos, lead⟩)
      (skipLine ⟨line ++ '\n' :: b, pos, lead⟩) := by
  have hlong : InLine (line ++ ' ' :: 'r' :: 'e' :: 'm' :: ' ' :: t) := by
    intro c hc
    rcases List.mem_append.1 hc with hc | hc
    · exact hline c hc
    · exact (InLine.cons rfl (.cons rfl (.cons rfl (.cons rfl (.cons rfl ht))))) c hc
  have hsplit : line ++ remarked t b = (line ++ ' ' :: 'r' :: 'e' :: 'm' :: ' ' :: t) ++ '\n' :: b := by
    simp [remarked]
  refine .behind ?_
  rw [hsplit, skipGap_skipLine hlong, skipGap_skipLine hline]

theorem behind_same {c c' : Cursor} {lexeme : Lexeme} (hscan : c.scan = (.ok (some lexeme), c'))
    (hsound : c.Sound) :
    Coupling.Behind id (fun _ _ => True) (Remarkable t b) lexeme c' c' where
  known := trivial
  apart _ _ := touches_eq_false_of_lead hscan
  remark hrem := ⟨.behind rfl, .inl ((hsound.behind hscan).1 hrem)⟩
  other hrem := ⟨.behind rfl, .inl ((hsound.behind hscan).2 hrem)⟩

theorem agreed_same {c c' : Cursor} {found : Option Lexeme} (hscan : c.scan = (.ok found, c'))
    (hsound : c.Sound) :
    Coupling.Agreed id (fun _ _ => True) (Remarkable t b) AtEnds none (.ok found, c') (.ok found, c') := by
  cases found with
  | none =>
    have hend := (scan_of_end hscan).2.2
    exact .stop ⟨hend, hend⟩
  | some lexeme => exact .token (behind_same hscan hsound)

theorem behind_common {c c' d d' : Cursor} {lexeme : Lexeme} (hscan : c.scan = (.ok (some lexeme), d))
    (hscan' : c'.scan = (.ok (some lexeme), d')) (hsound : c.Sound ∨ c'.Sound)
    (hother : Abreast t b d d') (hrem : Abreast t b d.skipLine d'.skipLine) :
    Coupling.Behind id (fun _ _ => True) (Remarkable t b) lexeme d d' where
  known := trivial
  apart _ _ := touches_eq_false_of_lead hscan'
  remark hword := ⟨hrem, hsound.imp (fun h => (h.behind hscan).1 hword)
    fun h => (h.behind hscan').1 hword⟩
  other hword := ⟨hother, hsound.imp (fun h => (h.behind hscan).2 hword)
    fun h => (h.behind hscan').2 hword⟩

theorem scan_rem (cs : List Char) (pos : Pos) (lead : Bool) :
    scanAt ⟨'r' :: 'e' :: 'm' :: ' ' :: cs, pos, lead⟩ =
      (.ok (some ⟨.word .rem, pos, pos.col + 3, lead⟩), ⟨' ' :: cs, ⟨pos.line, pos.col + 3⟩, false⟩) := by
  have hread : (readToken 'r' ['e', 'm']).result = .ok (.word .rem) := by rfl
  exact scanAt_run hread (.inr ⟨' ', cs, rfl, .inr (.inr rfl)⟩) pos lead

theorem scanned_of_met (ht : InLine t)
    (helse : ∀ k lexeme d, scan ⟨b, ⟨k + 1, 1⟩, true⟩ = (.ok (some lexeme), d) →
      lexeme.token ≠ .word .else)
    {c c' : Cursor} (hmet : Met t b c.skipGap c'.skipGap) (hsound : c.Sound ∨ c'.Sound) :
    Coupling.Scanned id (fun _ _ => True) (Remarkable t b) AtEnds none c.scan c'.scan := by
  have hscan := scan_eq c
  have hscan' := scan_eq c'
  generalize hstart : c.skipGap = start at hmet hscan
  generalize hstart' : c'.skipGap = start' at hmet hscan'
  cases hmet with
  | same =>
    have hsame : c.scan = c'.scan := hscan.trans hscan'.symm
    obtain hsound : c.Sound := hsound.elim id (Sound.congr hsame.symm)
    obtain ⟨found, d, hfound⟩ := hsound.exists_ok
    rw [← hsame, hfound]
    exact .agreed (agreed_same hfound hsound)
  | @line ch line s s' pos lead hline h =>
    cases hresult : (readToken ch line).result with
    | error detail =>
      obtain ⟨e, d, herror, hcode⟩ := scanAt_line_error hresult h.endsLine.1 pos lead
      obtain ⟨e', d', herror', hcode'⟩ := scanAt_line_error hresult h.endsLine.2 pos lead
      rw [hscan, hscan', herror, herror']
      exact .error (hcode.trans hcode'.symm)
    | ok token =>
      rw [scanAt_run hresult h.endsLine.1.endsRun] at hscan
      rw [scanAt_run hresult h.endsLine.2.endsRun] at hscan'
      have hinLine := hline.drop (readToken ch line).used
      have hbehind := behind_common hscan hscan' hsound (.before hinLine h)
        (abreast_skipLine hinLine h _ _)
      rw [hscan, hscan']
      exact .agreed (.token hbehind)
  | @last gap ch line token pos lead hline hread hlexes =>
    rw [scanAt_run hread endsRun_remarked] at hscan
    rw [scanAt_run hread endsLine_feed.endsRun] at hscan'
    have hinLine := hline.drop (readToken ch line).used
    have hbehind := behind_common hscan hscan' hsound (.last hinLine hlexes)
      (abreast_skipLine_last ht hinLine _ _)
    rw [hscan, hscan']
    exact .agreed (.token hbehind)
  | @remark pos lead =>
    rw [scan_rem] at hscan
    -- behind the remark both texts come to the same line
    have hblank : InLine (' ' :: t) := .cons rfl ht
    have hnext : (skipLine ⟨' ' :: (t ++ '\n' :: b), ⟨pos.line, pos.col + 3⟩, false⟩).scan = c'.scan := by
      rw [scan_eq, hscan']
      exact congrArg scanAt (skipGap_skipLine hblank b _ _)
    have hsound' : c'.Sound := hsound.elim (fun h => ((h.behind hscan).1 rfl).congr hnext) id
    obtain ⟨found, d, hfound⟩ := hsound'.exists_ok
    rw [hscan, hfound]
    refine .remark rfl ?_ ?_
    · rw [hnext, hfound]
      exact agreed_same hfound hsound'
    · rintro lexeme rfl
      obtain ⟨-, -, -, -, -, hlead, -⟩ := scan_of_token hfound
      refine ⟨?_, helse pos.line lexeme d ?_⟩
      · rw [hlead, hstart']
        exact skipFrom_lead _ _ _ rfl
      · rw [← hfound, hscan']
        rfl

theorem met_skipGap (ht : InLine t) {c c' : Cursor} (h : Abreast t b c c') :
    Met t b c.skipGap c'.skipGap := by
  have hcode : Gap.code.Marked := trivial
  cases h with
  | before hline h =>
    exact met_line hcode hline h (fun next hnext pos lead => met_skipFrom h hnext ht pos lead) _ _
  | last hline hlexes => exact met_last hcode ht hline hlexes _ _
  | behind h =>
    rw [h]
    exact .same

end

/-- A text with a remark at the end of a line and the text without it. -/
def remarking (t b : List Char) (ht : InLine t)
    (helse : ∀ k lexeme d, Cursor.scan ⟨b, ⟨k + 1, 1⟩, true⟩ = (.ok (some lexeme), d) →
      lexeme.token ≠ .word .else) : Coupling where
  move := id
  Known _ _ := True
  Linked := Remarkable t b
  Ended := AtEnds
  scanned h := scanned_of_met ht helse (met_skipGap ht h.1) h.2
  touches := @Coupling.touches_id
  ended h := ⟨h.1, fun _ => h.2⟩

theorem token_ne_of_lex {b : String} {token : Token}
    (h : (lex b).lexemes.head?.map Lexeme.token ≠ some token) (k : Nat) (lexeme : Lexeme) (d : Cursor)
    (hscan : Cursor.scan ⟨b.toList, ⟨k + 1, 1⟩, true⟩ = (.ok (some lexeme), d)) :
    lexeme.token ≠ token := by
  have hdown := (Cursor.ofSource b).scan_down k
  have hsame : (Cursor.ofSource b).down k = ⟨b.toList, ⟨k + 1, 1⟩, true⟩ := by
    rw [Cursor.down, Pos.down, Nat.add_comm k 1]
    rfl
  rw [hsame, hscan] at hdown
  rintro rfl
  refine h ?_
  simp only [lex, Lexer.collect, Lexer.next, Lexer.fill, Lexer.ofSource, Bool.false_eq_true, if_false]
  rcases hfirst : (Cursor.ofSource b).scan with ⟨e | _ | first, c⟩
  · rw [hfirst] at hdown
    obtain ⟨e, c', herror, -⟩ := hdown
    cases herror
  · rw [hfirst] at hdown
    cases hdown
  · rw [hfirst] at hdown
    cases hdown
    rfl

/-- Whether a text that is read token by token ends in a block comment. -/
def endsInBlock (source : String) : Bool :=
  (Cursor.ofSource source).endsInBlock (source.length + 1)

theorem met_start {a t : String} (b : String) (hlex : (lex a).failure = none)
    (hblock : endsInBlock a = false) (hreturn : a.toList.getLast? ≠ some '\r') (ht : InLine t.toList) :
    Met t.toList b.toList (Cursor.ofSource (a ++ " rem " ++ t ++ "\n" ++ b)).skipGap
      (Cursor.ofSource (a ++ "\n" ++ b)).skipGap := by
  obtain ⟨last, hlast, hlexes⟩ :=
    Cursor.lexes_of_collect _ (Nat.lt_succ_self a.length) none hlex hblock
  have hcode : Cursor.Gap.code.Marked := trivial
  -- the texts are taken to start with a line break, which makes their first line like the others
  have hjoined : Joined t.toList b.toList ('\n' :: (a.toList ++ remarked t.toList b.toList))
      ('\n' :: (a.toList ++ '\n' :: b.toList)) :=
    joined_of_lexes _ (Nat.lt_succ_self _) hlexes hlast hcode rfl hreturn fun _ => .inl rfl
  have hmet := met_skipFrom hjoined hcode ht ⟨0, 1⟩ true
  have hsource : a.toList ++ remarked t.toList b.toList = (a ++ " rem " ++ t ++ "\n" ++ b).toList := by
    simp [remarked]
  have hsource' : a.toList ++ '\n' :: b.toList = (a ++ "\n" ++ b).toList := by simp
  have hstart (text : String) :
      Cursor.skipFrom .code ('\n' :: text.toList) ⟨0, 1⟩ true = (Cursor.ofSource text).skipGap :=
    skipGap_feed text.toList ⟨0, 1⟩ true
  rwa [hsource, hsource', hstart, hstart] at hmet

/-- A remark at the end of a line changes nothing, unless the next line starts with `else`. -/
theorem parse_append_remark {a t b : String} (hlex : (lex a).failure = none)
    (hblock : endsInBlock a = false) (hreturn : a.toList.getLast? ≠ some '\r')
    (ht : ∀ c ∈ t.toList, isNewline c = false)
    (helse : (lex b).lexemes.head?.map Lexeme.token ≠ some (.word .else)) (code : Code) :
    parse (a ++ " rem " ++ t ++ "\n" ++ b) = .ok code ↔ parse (a ++ "\n" ++ b) = .ok code := by
  have hmet := met_start b hlex hblock hreturn ht
  generalize a ++ " rem " ++ t ++ "\n" ++ b = source at hmet ⊢
  generalize a ++ "\n" ++ b = source' at hmet ⊢
  by_cases hsound : (Cursor.ofSource source).Sound ∨ (Cursor.ofSource source').Sound
  · have hbeside : (remarking t.toList b.toList ht (token_ne_of_lex helse)).Beside
        (Lexer.ofSource source) (Lexer.ofSource source') :=
      Coupling.beside_of_scanned (scanned_of_met ht (token_ne_of_lex helse) hmet hsound)
    rcases Coupling.parse_coupled hbeside rfl rfl with ⟨same, hcode, hcode', -⟩ | ⟨e, e', herror, herror', -⟩
    · have hid : same.mapPos (remarking t.toList b.toList ht (token_ne_of_lex helse)).move = same :=
        same.mapPos_id
      rw [hcode, hcode', hid]
    · rw [herror, herror']
      simp
  · constructor
    · exact fun hcode => absurd (.inl (cursor_sound_of_parse hcode)) hsound
    · exact fun hcode => absurd (.inr (cursor_sound_of_parse hcode)) hsound

/-- A remark with a quote behind `then`, where the branch is in the next line. -/
theorem parse_append_remark_then :
    parse ("if a then" ++ " rem " ++ "say \"hi" ++ "\n" ++ "print b") =
      .ok ⟨#[.when ⟨1, 1⟩ (.var ⟨1, 4⟩ "a") (.command ⟨2, 1⟩ "print" (some (.var ⟨2, 7⟩ "b")) false)],
        [], []⟩ := by
  have hlex : (lex "if a then").failure = none := by decide +kernel
  have helse : (lex "print b").lexemes.head?.map Lexeme.token ≠ some (.word .else) := by decide +kernel
  have ht : ∀ c ∈ "say \"hi".toList, isNewline c = false := by simp [isNewline]
  refine (parse_append_remark hlex (by decide +kernel) (by decide +kernel) ht helse _).2 ?_
  decide +kernel

/-- Behind a remark `else` is not found. -/
theorem remark_hides_else :
    (lex "if a then b").failure = none ∧ endsInBlock "if a then b" = false ∧
    parse ("if a then b" ++ " rem " ++ "note" ++ "\n" ++ "else c") =
      .error ⟨.malformed, "UNEXPECTED else", some ⟨2, 1⟩, some "else c"⟩ ∧
    parse ("if a then b" ++ "\n" ++ "else c") =
      .ok ⟨#[.choose ⟨1, 1⟩ (.var ⟨1, 4⟩ "a") (.command ⟨1, 11⟩ "b" none false)
        (.command ⟨2, 6⟩ "c" none false)], [], []⟩ := by
  exact ⟨by decide +kernel, by decide +kernel, by decide +kernel, by decide +kernel⟩

end LineBasic
