import LineBasic.Proofs.LongerText

/-!
# Scanning along a line

A gap between two tokens is skipped line by line. Along a line the scanner either finds the next token
or comes to the end of the line, in a gap that only depends on the line and on the gap before it.
-/

namespace LineBasic

set_option autoImplicit false

/-- A line break in front of a text. -/
def IsBreak (eol cs : List Char) : Prop :=
  eol = ['\n'] ∨ eol = ['\r', '\n'] ∨ eol = ['\r'] ∧ cs.head? ≠ some '\n'

/-- The characters of a line hold no line break. -/
def InLine (cs : List Char) : Prop :=
  ∀ c ∈ cs, isNewline c = false

/-- What follows the characters of a line. -/
def EndsLine (cs : List Char) : Prop :=
  cs = [] ∨ ∃ c rest, cs = c :: rest ∧ isNewline c = true

/-- What follows characters none of which it belongs to. -/
def EndsRun (cs : List Char) : Prop :=
  cs = [] ∨ ∃ c rest, cs = c :: rest ∧ Cursor.EndsToken c

theorem IsBreak.endsLine {eol cs : List Char} (h : IsBreak eol cs) : EndsLine (eol ++ cs) := by
  rcases h with rfl | rfl | ⟨rfl, -⟩
  · exact .inr ⟨'\n', cs, rfl, rfl⟩
  · exact .inr ⟨'\r', '\n' :: cs, rfl, rfl⟩
  · exact .inr ⟨'\r', cs, rfl, rfl⟩

theorem EndsLine.endsRun {cs : List Char} (h : EndsLine cs) : EndsRun cs := by
  rcases h with rfl | ⟨c, rest, rfl, hc⟩
  · exact .inl rfl
  · exact .inr ⟨c, rest, rfl, Cursor.endsToken_of_isNewline hc⟩

theorem inLine_nil : InLine [] :=
  fun _ hc => by cases hc

theorem InLine.cons {c : Char} {cs : List Char} (hc : isNewline c = false) (h : InLine cs) :
    InLine (c :: cs) := by
  intro d hd
  rcases List.mem_cons.1 hd with rfl | hd
  · exact hc
  · exact h d hd

theorem InLine.head {c : Char} {cs : List Char} (h : InLine (c :: cs)) : isNewline c = false :=
  h c List.mem_cons_self

theorem InLine.tail {c : Char} {cs : List Char} (h : InLine (c :: cs)) : InLine cs :=
  fun d hd => h d (List.mem_cons_of_mem _ hd)

theorem InLine.drop {cs : List Char} (h : InLine cs) (n : Nat) : InLine (cs.drop n) :=
  fun d hd => h d (List.mem_of_mem_drop hd)

theorem inLine_or_break (cs : List Char) :
    InLine cs ∨ ∃ line eol more, InLine line ∧ IsBreak eol more ∧ cs = line ++ (eol ++ more) := by
  induction cs with
  | nil => exact .inl inLine_nil
  | cons c cs ih =>
    by_cases hc : isNewline c = true
    · rcases Cursor.eq_of_isNewline hc with rfl | rfl
      · exact .inr ⟨[], ['\n'], cs, inLine_nil, .inl rfl, rfl⟩
      · by_cases hhead : cs.head? = some '\n'
        · obtain ⟨more, rfl⟩ := List.head?_eq_some_iff.1 hhead
          exact .inr ⟨[], ['\r', '\n'], more, inLine_nil, .inr (.inl rfl), rfl⟩
        · exact .inr ⟨[], ['\r'], cs, inLine_nil, .inr (.inr ⟨rfl, hhead⟩), rfl⟩
    · rw [Bool.not_eq_true] at hc
      rcases ih with hline | ⟨line, eol, more, hline, heol, rfl⟩
      · exact .inl (hline.cons hc)
      · exact .inr ⟨c :: line, eol, more, hline.cons hc, heol, rfl⟩

namespace Cursor

/-! ### Gaps along a line -/

/-- The runs of block comments are long enough and of the right characters. -/
def Gap.Marked : Gap → Prop
  | code | comment => True
  | block mark length _ => (mark = '-' ∨ mark = '=') ∧ blockRun ≤ length

theorem Gap.Marked.nextLine {gap : Gap} (h : gap.Marked) : gap.nextLine.Marked := by
  cases gap <;> exact h

theorem Gap.Marked.step {gap next : Gap} (h : gap.Marked) {c : Char} {cs : List Char}
    (hstep : gap.step c cs = some next) : next.Marked := by
  cases gap with
  | code =>
    simp only [Gap.step] at hstep
    split at hstep
    · cases hstep
      trivial
    · split at hstep
      · cases hstep
        trivial
      · split at hstep
        · rename_i hmark
          cases hstep
          split
          · rename_i hlength
            exact ⟨hmark.1, hlength⟩
          · trivial
        · cases hstep
  | comment =>
    cases hstep
    trivial
  | block mark length fresh =>
    simp only [Gap.step] at hstep
    split at hstep
    · cases hstep
      exact h
    · split at hstep
      · cases hstep
        trivial
      · cases hstep
        exact h

/-- What a character does to a gap depends on the run of characters that it starts. -/
theorem Gap.step_run {gap : Gap} (h : gap.Marked) {c : Char} {rest : List Char} (hrest : EndsRun rest)
    (cs : List Char) : gap.step c (cs ++ rest) = gap.step c cs := by
  rcases hrest with rfl | ⟨stop, rest, rfl, hstop⟩
  · rw [List.append_nil]
  have hrun {mark : Char} (hmark : stop ≠ mark) (cs : List Char) :
      runLength mark (cs ++ stop :: rest) = runLength mark cs := by
    rw [runLength, takeWhile_append_stop (p := (· == mark)) (beq_false_of_ne hmark), runLength]
  cases gap with
  | code =>
    by_cases hblank : Text.isBlank c = true
    · simp only [Gap.step, hblank, if_true]
    · have hne : stop ≠ c := by
        rintro rfl
        refine hblank ?_
        rcases hstop with rfl | rfl | rfl <;> decide
      have hhead : (cs ++ stop :: rest).head? = some c ↔ cs.head? = some c := by
        cases cs with
        | nil => simp [hne]
        | cons d ds => rfl
      simp only [Gap.step, hhead, ← List.cons_append, hrun hne]
  | comment => rfl
  | block mark length fresh =>
    have hne : stop ≠ mark := by
      rcases h.1 with rfl | rfl <;> rcases hstop with rfl | rfl | rfl <;> decide
    simp only [Gap.step, ← List.cons_append, hrun hne]

theorem Gap.past_cons (gap : Gap) {c : Char} (hc : isNewline c = false) (cs : List Char) :
    gap.past (c :: cs) = (gap.step c cs).bind fun next => next.past cs := by
  have hreturn : ∀ ds, c = '\r' → cs = '\n' :: ds → False := by
    rintro ds rfl
    cases hc
  rw [Gap.past.eq_3 _ _ _ hreturn, if_neg (by simp [hc])]
  cases gap.step c cs <;> rfl

theorem Gap.Marked.past {gap next : Gap} (h : gap.Marked) {cs : List Char} (hcs : InLine cs)
    (hpast : gap.past cs = some next) : next.Marked := by
  induction cs generalizing gap with
  | nil =>
    cases hpast
    exact h
  | cons c cs ih =>
    rw [Gap.past_cons gap hcs.head] at hpast
    obtain ⟨mid, hstep, hpast⟩ := Option.bind_eq_some_iff.1 hpast
    exact ih (h.step hstep) hcs.tail hpast

theorem Gap.past_append {gap : Gap} (h : gap.Marked) {cs rest : List Char} (hcs : InLine cs)
    (hrest : EndsRun rest) : gap.past (cs ++ rest) = (gap.past cs).bind fun next => next.past rest := by
  induction cs generalizing gap with
  | nil => rfl
  | cons c cs ih =>
    rw [List.cons_append, Gap.past_cons gap hcs.head, Gap.past_cons gap hcs.head, Gap.step_run h hrest]
    cases hstep : gap.step c cs with
    | none => rfl
    | some next => exact ih (h.step hstep) hcs.tail

theorem Gap.past_break {eol cs : List Char} (h : IsBreak eol cs) (gap : Gap) :
    gap.past (eol ++ cs) = gap.nextLine.past cs := by
  rcases h with rfl | rfl | ⟨rfl, hcs⟩
  · rw [List.singleton_append, Gap.past.eq_3 _ _ _ (by simp), if_pos (by rfl)]
  · rfl
  · have hsingle : ∀ ds, '\r' = '\r' → cs = '\n' :: ds → False := by
      rintro ds - rfl
      exact hcs rfl
    rw [List.singleton_append, Gap.past.eq_3 _ _ _ hsingle, if_pos (by rfl)]

theorem Gap.nextLine_nextLine (gap : Gap) : gap.nextLine.nextLine = gap.nextLine := by
  cases gap <;> rfl

theorem skipFrom_cons (gap : Gap) {c : Char} (hc : isNewline c = false) (cs : List Char) (pos : Pos)
    (lead : Bool) : skipFrom gap (c :: cs) pos lead =
      ((gap.step c cs).map fun next => skipFrom next cs ⟨pos.line, pos.col + 1⟩ lead).getD
        ⟨c :: cs, pos, lead⟩ := by
  have hreturn : ∀ ds, c = '\r' → cs = '\n' :: ds → False := by
    rintro ds rfl
    cases hc
  rw [skipFrom.eq_3 _ _ _ _ _ hreturn, if_neg (by simp [hc])]
  cases gap.step c cs <;> rfl

/-- Skipping a gap along a line: it goes on behind the line if no token starts there. -/
theorem skipFrom_past {gap next : Gap} (h : gap.Marked) {cs rest : List Char} (hcs : InLine cs)
    (hrest : EndsRun rest) (hpast : gap.past cs = some next) (pos : Pos) (lead : Bool) :
    skipFrom gap (cs ++ rest) pos lead =
      skipFrom next rest ⟨pos.line, pos.col + cs.length⟩ lead := by
  induction cs generalizing gap pos with
  | nil =>
    cases hpast
    rfl
  | cons c cs ih =>
    have hc := hcs.head
    rw [Gap.past_cons gap hc] at hpast
    obtain ⟨mid, hstep, hpast⟩ := Option.bind_eq_some_iff.1 hpast
    rw [List.cons_append, skipFrom_cons gap hc, Gap.step_run h hrest, hstep, Option.map_some,
      Option.getD_some, ih (h.step hstep) hcs.tail hpast,
      List.length_cons]
    simp only [Nat.add_assoc, Nat.add_comm 1]

/-- A token that starts in the line is found, whatever follows the line. -/
theorem skipFrom_token {gap : Gap} (h : gap.Marked) {cs : List Char} (hcs : InLine cs)
    (hpast : gap.past cs = none) : ∃ k, k < cs.length ∧ ∀ rest, EndsRun rest → ∀ pos lead,
      skipFrom gap (cs ++ rest) pos lead = ⟨cs.drop k ++ rest, ⟨pos.line, pos.col + k⟩, lead⟩ := by
  induction cs generalizing gap with
  | nil => cases hpast
  | cons c cs ih =>
    have hc := hcs.head
    rw [Gap.past_cons gap hc] at hpast
    cases hstep : gap.step c cs with
    | none =>
      refine ⟨0, Nat.succ_pos _, fun rest hrest pos lead => ?_⟩
      rw [List.cons_append, skipFrom_cons gap hc, Gap.step_run h hrest, hstep]
      rfl
    | some next =>
      rw [hstep] at hpast
      obtain ⟨k, hk, hskip⟩ := ih (h.step hstep) hcs.tail hpast
      refine ⟨k + 1, Nat.succ_lt_succ hk, fun rest hrest pos lead => ?_⟩
      rw [List.cons_append, skipFrom_cons gap hc, Gap.step_run h hrest, hstep, Option.map_some,
        Option.getD_some, hskip rest hrest]
      simp only [List.drop_succ_cons, Nat.add_assoc, Nat.add_comm 1]

theorem skipFrom_break {eol cs : List Char} (h : IsBreak eol cs) (gap : Gap) (pos : Pos) (lead : Bool) :
    skipFrom gap (eol ++ cs) pos lead = skipFrom gap.nextLine cs ⟨pos.line + 1, 1⟩ true := by
  rcases h with rfl | rfl | ⟨rfl, hcs⟩
  · rw [List.singleton_append, skipFrom.eq_3 _ _ _ _ _ (by simp), if_pos (by rfl)]
  · rfl
  · have hsingle : ∀ ds, '\r' = '\r' → cs = '\n' :: ds → False := by
      rintro ds - rfl
      exact hcs rfl
    rw [List.singleton_append, skipFrom.eq_3 _ _ _ _ _ hsingle, if_pos (by rfl)]

theorem past_of_steady {gap : Gap} {cs : List Char} (hcs : InLine cs)
    (h : ∀ c ∈ cs, ∀ rest, gap.step c rest = some gap) : gap.past cs = some gap := by
  induction cs with
  | nil => rfl
  | cons c cs ih =>
    rw [Gap.past_cons gap hcs.head, h c List.mem_cons_self]
    exact ih hcs.tail fun d hd => h d (List.mem_cons_of_mem _ hd)

theorem step_blank {gap : Gap} {c : Char} (hc : Text.isBlank c = true) (rest : List Char) :
    gap.nextLine.step c rest = some gap.nextLine := by
  cases gap <;> simp [Gap.nextLine, Gap.step, hc]

theorem past_comment {cs : List Char} (hcs : InLine cs) : Gap.comment.past cs = some .comment :=
  past_of_steady hcs fun _ _ _ => rfl

theorem past_passed {mark : Char} {length : Nat} {cs : List Char} (hcs : InLine cs) :
    (Gap.block mark length false).past cs = some (.block mark length false) :=
  past_of_steady hcs fun _ _ _ => by simp [Gap.step]

theorem step_block_text {mark c : Char} {length : Nat} {fresh : Bool}
    (h : (Gap.block mark length fresh).Marked) (hblank : Text.isBlank c = false)
    (hmark : c ≠ '-' ∧ c ≠ '=') (cs : List Char) :
    (Gap.block mark length fresh).step c cs = some (.block mark length false) := by
  have hrun : (runLength mark (c :: cs) == length) = false := by
    have hne : (c == mark) = false := by
      rcases h.1 with rfl | rfl
      · exact beq_false_of_ne hmark.1
      · exact beq_false_of_ne hmark.2
    have hlength : 0 ≠ length := fun h0 => absurd (h0 ▸ h.2) (by decide)
    simpa [runLength, hne] using hlength
  simp [Gap.step, hblank, hrun]

/-! ### Tokens of a line -/

theorem readToken_line (c : Char) (cs : List Char) {rest : List Char} (hrest : EndsLine rest) :
    readToken c (cs ++ rest) = readToken c cs := by
  rcases hrest with rfl | ⟨stop, rest, rfl, hstop⟩
  · rw [List.append_nil]
  · exact readToken_append hstop c cs rest

theorem takeWhile_line {line rest : List Char} (hline : InLine line) (hrest : EndsLine rest) :
    (line ++ rest).takeWhile (!isNewline ·) = line := by
  rw [List.takeWhile_append_of_pos fun c hc => by simp [hline c hc]]
  rcases hrest with rfl | ⟨stop, rest, rfl, hstop⟩
  · exact List.append_nil line
  · rw [List.takeWhile_cons_of_neg (by simp [hstop]), List.append_nil]

theorem scanAt_run {ch : Char} {line rest : List Char} {token : Token}
    (hresult : (readToken ch line).result = .ok token) (hrest : EndsRun rest) (pos : Pos)
    (lead : Bool) :
    scanAt ⟨ch :: line ++ rest, pos, lead⟩ =
      (.ok (some ⟨token, pos, pos.col + (readToken ch line).used, lead⟩),
        ⟨(ch :: line).drop (readToken ch line).used ++ rest,
          ⟨pos.line, pos.col + (readToken ch line).used⟩, false⟩) := by
  have hread : readToken ch (line ++ rest) = readToken ch line := by
    rcases hrest with rfl | ⟨stop, rest, rfl, hstop⟩
    · rw [List.append_nil]
    · exact readToken_append_of_ok hstop hresult rest
  have hused := readToken_used_le hresult
  rw [← hread] at hresult
  rw [List.cons_append, scanAt_of_ok rfl hresult, hread, Cursor.advance, ← List.cons_append,
    List.drop_append_of_le_length hused]

theorem scanAt_line_error {ch : Char} {line rest : List Char} {detail : String}
    (hresult : (readToken ch line).result = .error detail) (hrest : EndsLine rest) (pos : Pos)
    (lead : Bool) :
    ∃ e c, scanAt ⟨ch :: line ++ rest, pos, lead⟩ = (.error e, c) ∧ e.code = .lexical := by
  rw [← readToken_line ch line hrest] at hresult
  rw [List.cons_append]
  exact scanAt_of_error rfl hresult

theorem scan_of_nil {c : Cursor} (h : c.rest = []) : c.scan = (.ok none, c) := by
  obtain ⟨rest, pos, lead⟩ := c
  cases h
  rfl

end Cursor

end LineBasic
