import LineBasic.Proofs.LongerText

/-!
# Positions in a text

The scanner counts rows: a line feed, a carriage return or both in this order end one, and what
follows the last of them is a row, too. Where the scanner stands, the rows above it and the part of
its row that is behind it make up the position that it shows. So this position is always one in the
text, if only right behind the end of a row.
-/

namespace LineBasic

set_option autoImplicit false

/-- The rows of a text as the scanner counts them. -/
def rows : List Char → List (List Char)
  | [] => [[]]
  | '\r' :: '\n' :: cs => [] :: rows cs
  | c :: cs =>
    if isNewline c then [] :: rows cs
    else (c :: (rows cs).headD []) :: (rows cs).tail

theorem rows_eq (cs : List Char) : rows cs = (rows cs).headD [] :: (rows cs).tail := by
  fun_cases rows cs with
  | case1 => rfl
  | case2 cs => rfl
  | case3 c cs hcrlf hc => rfl
  | case4 c cs hcrlf hc => rfl

theorem rows_cons {c : Char} (hc : isNewline c = false) (cs : List Char) :
    rows (c :: cs) = (c :: (rows cs).headD []) :: (rows cs).tail := by
  have hcrlf : ∀ ds, c = '\r' → cs = '\n' :: ds → False := by
    rintro ds rfl
    cases hc
  rw [rows.eq_3 _ _ hcrlf, if_neg (by simp [hc])]

theorem rows_append {xs : List Char} (h : ∀ c ∈ xs, isNewline c = false) (ys : List Char) :
    rows (xs ++ ys) = (xs ++ (rows ys).headD []) :: (rows ys).tail := by
  induction xs with
  | nil => exact rows_eq ys
  | cons c xs ih =>
    obtain ⟨hc, hxs⟩ := List.forall_mem_cons.mp h
    rw [List.cons_append, rows_cons hc, ih hxs]
    rfl

/-- A position at a character of a text or right behind the end of a row. -/
structure Pos.In (p : Pos) (text : List Char) : Prop where
  line_pos : 1 ≤ p.line
  col_pos : 1 ≤ p.col
  row : ∃ row, (rows text)[p.line - 1]? = some row ∧ p.col ≤ row.length + 1

/-- Before the rest of a text, at the position that belongs to it: some rows are above, and a part of
the row is behind. -/
def Stands (text rest : List Char) (pos : Pos) : Prop :=
  ∃ above behind,
    rows text = above ++ (behind ++ (rows rest).headD []) :: (rows rest).tail ∧
      pos = ⟨above.length + 1, behind.length + 1⟩

namespace Stands

variable {text cs : List Char} {pos : Pos}

theorem start (text : List Char) : Stands text text ⟨1, 1⟩ :=
  ⟨[], [], rows_eq text, rfl⟩

theorem pos_in (h : Stands text cs pos) : pos.In text := by
  obtain ⟨above, behind, hrows, rfl⟩ := h
  refine ⟨Nat.le_add_left 1 _, Nat.le_add_left 1 _, behind ++ (rows cs).headD [], ?_, ?_⟩
  · rw [hrows, Nat.add_sub_cancel, List.getElem?_append_right (Nat.le_refl _), Nat.sub_self]
    rfl
  · rw [List.length_append]
    dsimp only
    omega

/-- In a row, characters that are left behind count as columns. -/
theorem append {xs ys : List Char} (hxs : ∀ c ∈ xs, isNewline c = false)
    (h : Stands text (xs ++ ys) pos) : Stands text ys ⟨pos.line, pos.col + xs.length⟩ := by
  obtain ⟨above, behind, hrows, rfl⟩ := h
  refine ⟨above, behind ++ xs, ?_, ?_⟩
  · rw [hrows, rows_append hxs, List.append_assoc]
    rfl
  · rw [List.length_append, Nat.add_right_comm]

theorem advance {n : Nat} (hn : n ≤ cs.length) (hline : ∀ c ∈ cs.take n, isNewline c = false)
    (h : Stands text cs pos) : Stands text (cs.drop n) ⟨pos.line, pos.col + n⟩ := by
  rw [← List.take_append_drop n cs] at h
  have hmoved := h.append hline
  rwa [List.length_take, Nat.min_eq_left hn] at hmoved

theorem nextRow {rest : List Char} (hbreak : rows cs = [] :: rows rest) (h : Stands text cs pos) :
    Stands text rest ⟨pos.line + 1, 1⟩ := by
  obtain ⟨above, behind, hrows, rfl⟩ := h
  rw [hbreak] at hrows
  refine ⟨above ++ [behind], [], ?_, ?_⟩
  · rw [hrows, List.append_assoc]
    simp only [List.headD_cons, List.append_nil, List.tail_cons, List.singleton_append,
      List.nil_append]
    rw [← rows_eq rest]
  · rw [List.length_append]
    rfl

end Stands

namespace Cursor

theorem stands_skipFrom {text : List Char} (gap : Gap) (cs : List Char) (pos : Pos) (lead : Bool)
    (h : Stands text cs pos) :
    Stands text (skipFrom gap cs pos lead).rest (skipFrom gap cs pos lead).pos := by
  fun_induction skipFrom gap cs pos lead with
  | case1 => exact h
  | case2 gap pos lead cs ih => exact ih (h.nextRow rfl)
  | case3 gap pos lead c cs hcrlf hc ih =>
    apply ih
    apply h.nextRow
    rw [rows.eq_3 _ _ hcrlf, if_pos hc]
  | case4 gap pos lead c cs hcrlf hc next hstep ih =>
    apply ih
    exact h.append (List.forall_mem_singleton.mpr (by simpa using hc))
  | case5 => exact h

/-- A cursor at the position that belongs to it. -/
def In (c : Cursor) (text : List Char) : Prop :=
  Stands text c.rest c.pos

variable {text : List Char} {c : Cursor}

theorem In.skipGap (h : c.In text) : c.skipGap.In text :=
  stands_skipFrom .code c.rest c.pos c.lead h

theorem In.skipLine (h : c.In text) : c.skipLine.In text := by
  refine Stands.advance (length_takeWhile_le _ _) ?_ h
  intro d hd
  rw [← List.prefix_iff_eq_take.mp (List.takeWhile_prefix _)] at hd
  simpa using List.all_eq_true.mp List.all_takeWhile d hd

theorem In.scan (h : c.In text) :
    match c.scan with
    | (.ok lexeme, c') => c'.In text ∧ ∀ l ∈ lexeme, l.pos.In text
    | (.error e, _) => e.code = .lexical ∧ e.excerpt = none ∧ ∃ p, e.pos = some p ∧ p.In text := by
  have hstart := h.skipGap
  have hpos := hstart.pos_in
  unfold Cursor.scan
  dsimp only
  cases hrest : c.skipGap.rest with
  | nil => exact ⟨hstart, nofun⟩
  | cons ch cs =>
    dsimp only
    cases hread : (readToken ch cs).result with
    | error detail => exact ⟨rfl, rfl, _, rfl, hpos⟩
    | ok token =>
      have hline := take_used_line (isNewline_of_not_isBlank (skipFrom_head hrest).1) hread
      have hused := readToken_used_le hread
      rw [In, hrest] at hstart
      have hmoved := hstart.advance hused hline
      dsimp only
      refine ⟨?_, ?_⟩
      · rw [In, Cursor.advance, hrest]
        exact hmoved
      · intro l hl
        cases hl
        exact hpos

end Cursor

end LineBasic
