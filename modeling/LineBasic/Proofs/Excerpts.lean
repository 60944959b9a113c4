import LineBasic.Proofs.LoadedPrograms
import LineBasic.Proofs.LocatedErrors
import LineBasic.Terminal.Report

/-!
# The line that a complaint shows

The scanner counts rows, which also a carriage return alone can end. An excerpt is cut out of the lines
of the source, and those end at line feeds only. Up to the first carriage return without a line feed the
two agree, apart from the empty row behind a line break at the very end, which is no line. Main statement:
which line a complaint shows, and when it is the row that its position is in, with the caret of the
report under the column of the position.
-/

namespace LineBasic

set_option autoImplicit false

/-- The line breaks of a text in order, each behind the row that it ends. The last row has none. -/
def rowEnds : List Char → List (List Char)
  | [] => []
  | '\r' :: '\n' :: cs => ['\r', '\n'] :: rowEnds cs
  | c :: cs => if isNewline c then [c] :: rowEnds cs else rowEnds cs

theorem rowEnds_cons {c : Char} (hc : isNewline c = false) (cs : List Char) :
    rowEnds (c :: cs) = rowEnds cs := by
  have hcrlf : ∀ ds, c = '\r' → cs = '\n' :: ds → False := by
    rintro ds rfl
    cases hc
  rw [rowEnds.eq_3 _ _ hcrlf, if_neg (by simp [hc])]

/-- Each of the first `n` rows of a text ends at a line feed, if at all. -/
def FedRows (n : Nat) (text : List Char) : Prop :=
  ∀ i < n, (rowEnds text)[i]? ≠ some ['\r']

theorem FedRows.tail {n : Nat} {text rest eol : List Char} (h : FedRows (n + 1) text)
    (hends : rowEnds text = eol :: rowEnds rest) : FedRows n rest := by
  intro i hi
  have hnext := h (i + 1) (Nat.succ_lt_succ hi)
  rwa [hends, List.getElem?_cons_succ] at hnext

theorem FedRows.mono {m n : Nat} {text : List Char} (h : FedRows n text) (hle : m ≤ n) :
    FedRows m text :=
  fun i hi => h i (Nat.lt_of_lt_of_le hi hle)

theorem FedRows.eq_feed {n : Nat} {c : Char} {cs : List Char} (h : FedRows (n + 1) (c :: cs))
    (hends : rowEnds (c :: cs) = [c] :: rowEnds cs) (hc : isNewline c = true) : c = '\n' := by
  have hfirst := h 0 (Nat.succ_pos n)
  rw [hends, List.getElem?_cons_zero] at hfirst
  have hreturn : c ≠ '\r' := fun heq => hfirst (heq ▸ rfl)
  simpa [isNewline, hreturn] using hc

/-- A row that counts as a line: it ends in a line break, or it is not empty. -/
def IsLineAt (text : List Char) (n : Nat) (row : List Char) : Prop :=
  n < (rowEnds text).length ∨ row ≠ []

theorem IsLineAt.tail {n : Nat} {text rest eol row : List Char} (h : IsLineAt text (n + 1) row)
    (hends : rowEnds text = eol :: rowEnds rest) : IsLineAt rest n row := by
  rw [IsLineAt, hends, List.length_cons, Nat.add_lt_add_iff_right] at h
  exact h

theorem headD_lines_of_fedRows {text : List Char} (h : FedRows 1 text) :
    (Text.lines text).headD [] = (rows text).headD [] := by
  fun_induction rows text with
  | case1 => rfl
  | case2 cs ih => rfl
  | case3 c cs hcrlf hc ih =>
    obtain rfl : c = '\n' := h.eq_feed (by rw [rowEnds.eq_3 _ _ hcrlf, if_pos hc]) hc
    rfl
  | case4 c cs hcrlf hc ih =>
    have hplain : isNewline c = false := by simpa using hc
    rw [FedRows, rowEnds_cons hplain] at h
    rw [lines_cons hplain, List.headD_cons, List.headD_cons, ih h]

/-- Up to the first carriage return that ends a row alone, rows are lines. -/
theorem lines_getElem?_of_fedRows {text row : List Char} {n : Nat} (hfed : FedRows (n + 1) text)
    (hrow : (rows text)[n]? = some row) (hline : IsLineAt text n row) :
    (Text.lines text)[n]? = some row := by
  have hbreak {text rest eol : List Char} (hends : rowEnds text = eol :: rowEnds rest)
      (hlines : Text.lines text = [] :: Text.lines rest)
      (ih : ∀ {row : List Char} {n : Nat}, FedRows (n + 1) rest → (rows rest)[n]? = some row →
        IsLineAt rest n row → (Text.lines rest)[n]? = some row) {row : List Char} {n : Nat}
      (hfed : FedRows (n + 1) text) (hrow : ([] :: rows rest)[n]? = some row)
      (hline : IsLineAt text n row) : (Text.lines text)[n]? = some row := by
    rw [hlines]
    cases n with
    | zero => exact hrow
    | succ n => exact ih (hfed.tail hends) hrow (hline.tail hends)
  fun_induction rows text generalizing row n with
  | case1 =>
    cases n with
    | zero =>
      cases hrow
      rcases hline with hends | hne
      · cases hends
      · exact absurd rfl hne
    | succ n => cases hrow
  | case2 cs ih => exact hbreak rfl rfl ih hfed hrow hline
  | case3 c cs hcrlf hc ih =>
    have hends : rowEnds (c :: cs) = [c] :: rowEnds cs := by
      rw [rowEnds.eq_3 _ _ hcrlf, if_pos hc]
    obtain rfl : c = '\n' := hfed.eq_feed hends hc
    exact hbreak hends rfl ih hfed hrow hline
  | case4 c cs hcrlf hc ih =>
    have hplain : isNewline c = false := by simpa using hc
    rw [FedRows, rowEnds_cons hplain] at hfed
    rw [lines_cons hplain]
    cases n with
    | zero =>
      rw [headD_lines_of_fedRows hfed]
      exact hrow
    | succ n =>
      rw [List.getElem?_cons_succ, List.getElem?_tail] at hrow ⊢
      rw [IsLineAt, rowEnds_cons hplain] at hline
      exact ih hfed hrow hline

/-! ### Complaints and their reports -/

theorem Error.withSource_of_pos {e : Error} {p : Pos} (hexcerpt : e.excerpt = none)
    (hpos : e.pos = some p) (source : String) :
    e.withSource source =
      { e with excerpt := (Text.lines source.toList)[p.line - 1]?.map String.ofList } := by
  simp only [withSource, hexcerpt, hpos]

theorem Terminal.report_of_excerpt {e : Error} {p : Pos} {row before : List Char}
    (hexcerpt : e.excerpt = some (String.ofList row)) (hpos : e.pos = some p)
    (hcol : p.col = before.length + 1) :
    Terminal.report e = String.ofList (row ++ '\n' :: before.map fun _ => ' ') ++
      Terminal.styled "31" "^" ++ "\n" ++ (Terminal.styled "1" ("?" ++ e.message) ++ "\n") := by
  have hfeed : "\n" = String.ofList ['\n'] := rfl
  have hshown : String.ofList (row ++ '\n' :: before.map fun _ => ' ') =
      String.ofList row ++ "\n" ++ String.ofList (List.replicate (p.col - 1) ' ') := by
    rw [hcol, Nat.add_sub_cancel, List.map_const', hfeed, ← String.ofList_append,
      ← String.ofList_append, List.append_assoc, List.singleton_append]
  rw [hshown]
  simp only [Terminal.report, hexcerpt, hpos, String.append_assoc]

/-- A complaint about a source shows the line whose number its position has. This line is the row of the
position if none of the rows up to there ends in a carriage return alone and the position is not behind
the last line. Then the report draws the caret under the part of the row that starts at the position. -/
theorem parse_shows_row {source : String} {e : Error} (h : parse source = .error e) :
    ∃ p row, e.pos = some p ∧ 1 ≤ p.line ∧ (rows source.toList)[p.line - 1]? = some row ∧
      e.excerpt = (Text.lines source.toList)[p.line - 1]?.map String.ofList ∧
      (FedRows p.line source.toList → IsLineAt source.toList (p.line - 1) row →
        e.excerpt = some (String.ofList row) ∧
          ∃ before after, row = before ++ after ∧ p.col = before.length + 1 ∧
            Terminal.report e = String.ofList (row ++ '\n' :: before.map fun _ => ' ') ++
              Terminal.styled "31" "^" ++ "\n" ++
              (Terminal.styled "1" ("?" ++ e.message) ++ "\n")) := by
  obtain ⟨raised, ⟨-, ⟨-, p, hpos, hin⟩, hnone⟩, rfl⟩ := complaint_of_parse h
  obtain ⟨row, hrow, hcol⟩ := hin.row
  have hline := hin.line_pos
  have hfirst := hin.col_pos
  rw [Error.withSource_of_pos hnone hpos]
  refine ⟨p, row, hpos, hline, hrow, rfl, fun hfed hlast => ?_⟩
  have hshown : (Text.lines source.toList)[p.line - 1]? = some row :=
    lines_getElem?_of_fedRows (hfed.mono (by omega)) hrow hlast
  rw [hshown]
  have hcol' : p.col = (row.take (p.col - 1)).length + 1 := by
    rw [List.length_take]
    omega
  exact ⟨rfl, row.take (p.col - 1), row.drop (p.col - 1), (List.take_append_drop _ _).symm, hcol',
    Terminal.report_of_excerpt rfl hpos hcol'⟩

/-- The second of three rows, between line breaks of both kinds that have a line feed. -/
theorem parse_shows_row_between_feeds :
    ∃ e, parse "a = b\r\nc = )\nd = a" = .error e ∧ e.pos = some ⟨2, 5⟩ ∧
      e.excerpt = some "c = )" ∧
      Terminal.report e = String.ofList "c = )\n    ".toList ++ Terminal.styled "31" "^" ++ "\n" ++
        (Terminal.styled "1" ("?" ++ e.message) ++ "\n") := by
  obtain ⟨e, hparse, hpos⟩ : ∃ e, parse "a = b\r\nc = )\nd = a" = .error e ∧
      e.pos = some ⟨2, 5⟩ := by
    refine ⟨⟨.malformed, "EXPECTED EXPRESSION", some ⟨2, 5⟩, some "c = )"⟩, ?_, rfl⟩
    decide +kernel
  obtain ⟨p, row, hp, -, hrow, -, hshows⟩ := parse_shows_row hparse
  obtain rfl : (⟨2, 5⟩ : Pos) = p := Option.some.inj (hpos.symm.trans hp)
  obtain rfl : "c = )".toList = row := Option.some.inj hrow
  have hends : rowEnds "a = b\r\nc = )\nd = a".toList = [['\r', '\n'], ['\n']] := by decide
  have hfed : FedRows 2 "a = b\r\nc = )\nd = a".toList := by
    rw [FedRows, hends]
    decide
  obtain ⟨hexcerpt, before, after, hsplit, hcol, hreport⟩ := hshows hfed (.inr (by decide))
  obtain rfl : "c = ".toList = before := by
    have hbefore : before = (before ++ after).take 4 := by
      rw [List.take_left' (by simpa using hcol.symm)]
    rw [hbefore, ← hsplit]
    rfl
  exact ⟨e, hparse, hp, hexcerpt, hreport⟩

/-- A carriage return alone ends the first row but not the first line, and so the second row is not
shown. -/
theorem row_behind_return_not_shown :
    ∃ e, parse "a = b\rc = )" = .error e ∧ e.pos = some ⟨2, 5⟩ ∧
      (rows "a = b\rc = )".toList)[1]? = some "c = )".toList ∧ e.excerpt = none := by
  refine ⟨⟨.malformed, "EXPECTED EXPRESSION", some ⟨2, 5⟩, none⟩, ?_, rfl, rfl, rfl⟩
  decide +kernel

end LineBasic
