import LineBasic.Proofs.Courses
import LineBasic.Proofs.LabelTables
import LineBasic.Proofs.LoadedLines
import LineBasic.Proofs.ThinnedText
import Mathlib.Data.List.TakeWhile

/-!
# Programs that went through the listing

A program text is cut into lines, the lines enter the listing, and the program is read from the lines
of the listing. If no line comes with a number or a dot, then only the blank lines and the lines that
start with `#` get lost on the way. Main statement: loading a text gives the program that reading the
text gives, but for the line numbers of its positions.
-/

namespace LineBasic

set_option autoImplicit false

/-- Whether a carriage return stands alone, without a line feed behind it. -/
def loneReturn : List Char → Bool
  | [] => false
  | c :: cs => (c == '\r' && cs.head? != some '\n') || loneReturn cs

/-- A line break with a line feed. -/
def IsFeed (eol : List Char) : Prop :=
  eol = ['\n'] ∨ eol = ['\r', '\n']

theorem IsFeed.isBreak {eol : List Char} (h : IsFeed eol) (cs : List Char) : IsBreak eol cs :=
  h.imp_right .inl

/-- Whether a line belongs in a listing. -/
def isProgramLine (line : List Char) : Bool :=
  !(Text.trim line).isEmpty && line.head? != some '#'

/-- The line of a listing's source that line `n` of a text becomes. -/
def lineOf (lines : List (List Char)) (n : Nat) : Nat :=
  (lines.take n).countP isProgramLine

/-! ### Cutting a text into lines -/

theorem loneReturn_of_append {xs ys : List Char} (h : loneReturn (xs ++ ys) = false) :
    loneReturn ys = false := by
  induction xs with
  | nil => exact h
  | cons c xs ih =>
    rw [List.cons_append, loneReturn, Bool.or_eq_false_iff] at h
    exact ih h.2

theorem lines_cons {c : Char} (hc : isNewline c = false) (cs : List Char) :
    Text.lines (c :: cs) = (c :: (Text.lines cs).headD []) :: (Text.lines cs).tail := by
  have hfeed : c ≠ '\n' := by
    rintro rfl
    cases hc
  have hreturn : ∀ ds, c = '\r' → cs = '\n' :: ds → False := by
    rintro ds rfl
    cases hc
  rw [Text.lines.eq_4 _ _ hreturn hfeed]
  cases Text.lines cs <;> rfl

theorem lines_of_inLine {line : List Char} (hline : InLine line) (hne : line ≠ []) :
    Text.lines line = [line] := by
  induction line with
  | nil => exact absurd rfl hne
  | cons c cs ih =>
    rw [lines_cons (hline c List.mem_cons_self)]
    cases cs with
    | nil => rfl
    | cons d ds =>
      rw [ih (fun x hx => hline x (List.mem_cons_of_mem _ hx)) (List.cons_ne_nil _ _)]
      rfl

theorem lines_append_break {line eol : List Char} (hline : InLine line) (heol : IsFeed eol)
    (more : List Char) : Text.lines (line ++ (eol ++ more)) = line :: Text.lines more := by
  induction line with
  | nil => rcases heol with rfl | rfl <;> rfl
  | cons c cs ih =>
    rw [List.cons_append, lines_cons (hline c List.mem_cons_self),
      ih fun x hx => hline x (List.mem_cons_of_mem _ hx)]
    rfl

theorem isFeed_of_isBreak {eol more : List Char} (heol : IsBreak eol more)
    (h : loneReturn (eol ++ more) = false) : IsFeed eol := by
  rcases heol with heol | heol | ⟨rfl, hmore⟩
  · exact .inl heol
  · exact .inr heol
  · rw [List.singleton_append, loneReturn, Bool.or_eq_false_iff] at h
    exact absurd (by simpa using h.1) hmore

/-! ### The lines that are left -/

theorem forall_isBlank_of_trim {line : List Char} (h : Text.trim line = []) :
    ∀ c ∈ line, Text.isBlank c = true := by
  rw [Text.trim, List.reverse_eq_nil_iff, List.dropWhile_eq_nil_iff] at h
  intro c hc
  rw [← List.takeWhile_append_dropWhile (p := Text.isBlank) (l := line), List.mem_append] at hc
  rcases hc with hc | hc
  · exact List.mem_takeWhile_imp hc
  · exact h c (List.mem_reverse.2 hc)

theorem skipped_of_not_isProgramLine {line : List Char} (h : isProgramLine line = false) :
    Skipped line := by
  rw [isProgramLine, Bool.and_eq_false_iff] at h
  rcases h with hblank | hhead
  · exact .inl (forall_isBlank_of_trim (by simpa using hblank))
  · exact .inr (by simpa using hhead)

theorem lineOf_monotone (lines : List (List Char)) : Monotone (lineOf lines) :=
  fun _ _ h => (List.take_sublist_take_left h).countP_le

/-- What is left of the lines, with a line break before each. -/
def leftOf (lines : List (List Char)) : List Char :=
  (lines.filter isProgramLine).flatMap ('\n' :: ·)

theorem thinned_line {front rest : List (List Char)} {line eol s : List Char} (heol : IsFeed eol)
    (hline : InLine line)
    (h : Thinned (lineOf (front ++ line :: rest)) (front.length + 1) s (leftOf rest)) :
    Thinned (lineOf (front ++ line :: rest)) front.length (eol ++ (line ++ s))
      (leftOf (line :: rest)) := by
  have hlineOf : lineOf (front ++ line :: rest) (front.length + 1) =
      lineOf (front ++ line :: rest) front.length + if isProgramLine line then 1 else 0 := by
    simp [lineOf, List.take_append, List.take_of_length_le (Nat.le_succ front.length)]
  cases hprogram : isProgramLine line with
  | true =>
    rw [hprogram] at hlineOf
    have hleft : leftOf (line :: rest) = '\n' :: (line ++ leftOf rest) := by
      simp [leftOf, hprogram]
    rw [hleft]
    exact .kept (heol.isBreak _) hline hlineOf h
  | false =>
    rw [hprogram] at hlineOf
    have hleft : leftOf (line :: rest) = leftOf rest := by simp [leftOf, hprogram]
    rw [hleft]
    exact .dropped (heol.isBreak _) hline (skipped_of_not_isProgramLine hprogram) hlineOf h

theorem thinned_lines (n : Nat) {cs : List Char} (hlength : cs.length < n)
    (hreturn : loneReturn cs = false) (front : List (List Char)) {eol : List Char}
    (heol : IsFeed eol) :
    Thinned (lineOf (front ++ Text.lines cs)) front.length (eol ++ cs) (leftOf (Text.lines cs)) := by
  induction n generalizing cs front eol with
  | zero => exact absurd hlength (Nat.not_lt_zero _)
  | succ n ih =>
    rcases inLine_or_break cs with hline | ⟨line, eol', more, hline, hbreak, rfl⟩
    · cases cs with
      | nil =>
        -- what follows the last line break is empty and no line of the text
        have hsame : lineOf (front ++ []) (front.length + 1) = lineOf (front ++ []) front.length := by
          simp [lineOf, List.take_of_length_le (Nat.le_succ front.length)]
        exact .dropped (heol.isBreak _) hline (.inl fun _ hc => by cases hc) hsame .nil
      | cons c cs =>
        have hthinned := @thinned_line front [] _ _ [] heol hline .nil
        rwa [List.append_nil, ← lines_of_inLine hline (List.cons_ne_nil _ _)] at hthinned
    · have heol' := isFeed_of_isBreak hbreak (loneReturn_of_append hreturn)
      have hmore := loneReturn_of_append (loneReturn_of_append hreturn)
      have hshort : more.length < n := by
        have hpos : 0 < eol'.length := by rcases heol' with rfl | rfl <;> decide
        simp only [List.length_append] at hlength
        omega
      have hrest := ih hshort hmore (front ++ [line]) heol'
      rw [lines_append_break hline heol']
      refine thinned_line heol hline ?_
      simpa using hrest

/-! ### The source of the listing -/

namespace Listing

/-- Neither a digit nor a dot starts the line. -/
def Plain (line : List Char) : Prop :=
  line.head?.all (fun c => !c.isDigit && c != '.') = true

instance (line : List Char) : Decidable (Plain line) :=
  inferInstanceAs (Decidable (_ = _))

theorem Plain.head?_ne {line : List Char} (h : Plain line) : line.head? ≠ some '.' := by
  intro hdot
  rw [Plain, hdot] at h
  revert h
  decide

theorem Plain.leadingNumber? {line : List Char} (h : Plain line) : leadingNumber? line = none := by
  cases line with
  | nil => rfl
  | cons c cs =>
    have hdigit : c.isDigit = false := by
      rw [Plain, List.head?_cons, Option.all_some, Bool.and_eq_true] at h
      simpa using h.1
    simp [Listing.leadingNumber?, hdigit]

theorem Plain.hasText {line : List Char} (h : Plain line) : HasText line := by
  rw [HasText, h.leadingNumber?]
  exact nofun

theorem text_placed {lines : List (List Char)} (h : ∀ line ∈ lines, Plain line) (last : Nat) :
    (placed last lines).map Placed.text = lines.map String.ofList := by
  induction lines generalizing last with
  | nil => rfl
  | cons line lines ih =>
    have hline := h line List.mem_cons_self
    rw [placed, List.map_cons, ih (fun other hother => h other (List.mem_cons_of_mem _ hother)),
      Placed.ofLine_of_none hline.head?_ne hline.leadingNumber?, List.map_cons]

theorem numbered_placed {lines : List (List Char)} (h : ∀ line ∈ lines, Plain line) {last : Nat}
    {p : Placed} (hp : p ∈ placed last lines) : p.numbered = false := by
  induction lines generalizing last with
  | nil => cases hp
  | cons line lines ih =>
    rcases List.mem_cons.1 hp with rfl | hp
    · rw [Placed.numbered_ofLine, (h line List.mem_cons_self).leadingNumber?]
      rfl
    · exact ih (fun other hother => h other (List.mem_cons_of_mem _ hother)) hp

theorem source_ofSource {source : String} (h : ∀ line ∈ Text.lines source.toList, Plain line) :
    (ofSource source).source = "\n".intercalate ((programLines source).map String.ofList) := by
  have hplain : ∀ line ∈ programLines source, Plain line :=
    fun line hline => h line (List.mem_filter.1 hline).1
  have hgrow : (placed 0 (programLines source)).Pairwise fun p q => p.number < q.number :=
    (pairwise_placed 0 (programLines source)).imp_of_mem
      fun _ hq hlt => hlt (numbered_placed hplain hq)
  have hnodup : ((placed 0 (programLines source)).map Placed.number).Nodup :=
    List.pairwise_map.2 (hgrow.imp Nat.ne_of_lt)
  have htoList : (ofSource source).toList =
      (placed 0 (programLines source)).map fun p => (p.number, p.text) := by
    have hperm := toList_keep_perm hnodup
    rw [← lines_ofSource fun line hline => (h line hline).hasText] at hperm
    have hsorted : (ofSource source).toList.Pairwise fun a b => a.1 < b.1 :=
      Std.TreeMap.ordered_keys_toList.imp Nat.compare_eq_lt.1
    refine List.Perm.eq_of_pairwise ?_ hsorted (List.pairwise_map.2 hgrow) hperm
    exact fun a b _ _ hab hba => absurd hab (Nat.lt_asymm hba)
  rw [Listing.source, range, htoList, ← text_placed hplain 0]
  simp [Function.comp_def]

end Listing

theorem flatMap_cons_eq_intercalate (c : Char) (line : List Char) (lines : List (List Char)) :
    (line :: lines).flatMap (c :: ·) = c :: [c].intercalate (line :: lines) := by
  induction lines generalizing line with
  | nil => simp
  | cons next lines ih =>
    rw [List.flatMap_cons, ih, List.intercalate_cons_cons]
    simp

theorem leftOf_eq {source : String} (h : ∀ line ∈ Text.lines source.toList, Listing.Plain line)
    (hne : Listing.programLines source ≠ []) :
    leftOf (Text.lines source.toList) = '\n' :: (Listing.ofSource source).source.toList := by
  have htexts (lines : List (List Char)) : (lines.map String.ofList).map String.toList = lines := by
    simp [Function.comp_def]
  rw [Listing.source_ofSource h, String.toList_intercalate, htexts]
  obtain ⟨line, lines, hlines⟩ := List.exists_cons_of_ne_nil hne
  rw [hlines]
  have hleft : leftOf (Text.lines source.toList) = (line :: lines).flatMap ('\n' :: ·) := by
    rw [← hlines]
    rfl
  rw [hleft, flatMap_cons_eq_intercalate]
  rfl

theorem source_ofSource_of_empty {source : String} (hempty : Listing.programLines source = []) :
    (Listing.ofSource source).source.toList = [] := by
  rw [Listing.ofSource, hempty]
  rfl

/-- The text and the source of the listing have corresponding tokens. -/
theorem beside_listing {source : String}
    (hplain : ∀ line ∈ Text.lines source.toList, Listing.Plain line)
    (hreturn : loneReturn source.toList = false) :
    (thinning _ (lineOf_monotone (Text.lines source.toList))).Beside (Lexer.ofSource source)
      (Lexer.ofSource (Listing.ofSource source).source) := by
  refine Coupling.beside_of_scanned (scanned_of_reached ?_)
  have hrank := lineOf_monotone (Text.lines source.toList)
  have hthinned : Thinned (lineOf (Text.lines source.toList)) 0 ('\n' :: source.toList)
      (leftOf (Text.lines source.toList)) :=
    thinned_lines _ (Nat.lt_succ_self _) hreturn [] (.inl rfl)
  have hcode : Cursor.Gap.code.Marked := trivial
  -- the text is taken to start with a line break, which makes its first line like the others
  have hstart (text : String) :
      Cursor.skipFrom .code ('\n' :: text.toList) ⟨0, 1⟩ true = (Cursor.ofSource text).skipGap :=
    Cursor.skipFrom_break (.inl rfl) .code ⟨0, 1⟩ true
  have hreached : Cursor.Reached (lineOf (Text.lines source.toList))
      (Cursor.skipFrom .code ('\n' :: source.toList) ⟨0, 1⟩ true)
      (Cursor.skipFrom .code (leftOf (Text.lines source.toList)) ⟨0, 1⟩ true) :=
    Cursor.reached_skipFrom hrank hthinned hcode hcode rfl rfl rfl true true
  rw [hstart] at hreached
  by_cases hempty : Listing.programLines source = []
  · have hleft : leftOf (Text.lines source.toList) = [] := congrArg (List.flatMap ('\n' :: ·)) hempty
    rw [hleft] at hreached
    refine .stop (hreached.rest_eq_nil rfl) ?_
    rw [Cursor.skipGap, Cursor.ofSource, source_ofSource_of_empty hempty]
    rfl
  · rwa [leftOf_eq hplain hempty, hstart] at hreached

/-! ### Loading -/

theorem DataQueue.pushAll_eq (d : DataQueue) (vs : List Value) :
    d.pushAll vs = { d with values := d.values ++ vs } := by
  induction vs generalizing d with
  | nil => simp [pushAll]
  | cons v vs ih =>
    rw [pushAll, List.foldl_cons]
    change (d.push v).pushAll vs = _
    rw [ih]
    simp [push]

theorem Machine.load_of_parse_error (m : Machine) {source : String} {e : Error}
    (h : parse (Listing.ofSource source).source = .error e) :
    ∃ m', m.load source = (.error e, m') := by
  unfold load compileListing compile Program.compile
  dsimp only
  rw [h]
  exact ⟨_, rfl⟩

/-- Loading a text without numbered lines: the program is the one read from the text itself, with
every line number less by the lines that are left out, and it has the same labels and data. If the text
cannot be read, it cannot be loaded, for the same reason. -/
theorem Machine.load_eq_parse (m : Machine) {source : String}
    (hplain : ∀ line ∈ Text.lines source.toList, Listing.Plain line)
    (hreturn : loneReturn source.toList = false) :
    (∃ code block m', parse source = .ok code ∧ m.load source = (.ok block, m') ∧
      block.statements =
        code.statements.map (Stmt.mapPos (Pos.thin (lineOf (Text.lines source.toList)))) ∧
      (∀ name, m'.program.label? name =
        (code.labels.reverse.find? (·.1 = name)).map fun l => ⟨block, l.2⟩) ∧
      m'.data = ⟨(code.data.map Constant.value).toArray, 0⟩) ∨
    ∃ e e' m', parse source = .error e ∧ m.load source = (.error e', m') ∧ e.code = e'.code := by
  rcases Coupling.parse_coupled (beside_listing hplain hreturn) rfl rfl with
    ⟨code, hcode, hlisted, -⟩ | ⟨e, e', herror, hlisted, hsame⟩
  · refine .inl ⟨code, _, _, hcode, m.load_of_parse hlisted, rfl, fun name => ?_, ?_⟩
    · rw [Program.tight_of_empty.label?_addLabels Std.TreeMap.getElem?_emptyc, Program.label?_empty,
        Option.or_none]
      rfl
    · exact (DataQueue.pushAll_eq _ _).trans (by simp [Code.mapPos])
  · obtain ⟨m', hload⟩ := m.load_of_parse_error hlisted
    exact .inr ⟨e, e', m', herror, hload, hsame⟩

/-- Lines are left out at the start, in a block comment and between the branches. -/
theorem Machine.load_eq_parse_branches :
    let source := "#\r\nif a then b\n====\n#\n====\n\nelse c\nz: data true"
    ∃ block m', (Machine.new {} (.ofSeed 7)).load source = (.ok block, m') ∧
      block.statements = #[.choose ⟨1, 1⟩ (.var ⟨1, 4⟩ "a") (.command ⟨1, 11⟩ "b" none false)
        (.command ⟨4, 6⟩ "c" none false)] ∧
      m'.program.label? "z" = some ⟨block, 1⟩ ∧ m'.data = ⟨#[.bool true], 0⟩ := by
  intro source
  have hparse : parse source = .ok ⟨#[.choose ⟨2, 1⟩ (.var ⟨2, 4⟩ "a")
      (.command ⟨2, 11⟩ "b" none false) (.command ⟨7, 6⟩ "c" none false)], [("z", 1)],
      [.bool true]⟩ := by
    decide +kernel
  have hplain : ∀ line ∈ Text.lines source.toList, Listing.Plain line := by decide +kernel
  have hlines : lineOf (Text.lines source.toList) 2 = 1 ∧ lineOf (Text.lines source.toList) 7 = 4 := by
    decide +kernel
  rcases (Machine.new {} (.ofSeed 7)).load_eq_parse hplain (by decide +kernel) with
    ⟨code, block, m', hcode, hload, hstatements, hlabels, hdata⟩ | ⟨e, e', m', herror, hload, hsame⟩
  · cases hparse.symm.trans hcode
    refine ⟨block, m', hload, hstatements.trans ?_, hlabels "z", hdata⟩
    simp [Stmt.mapPos, Expr.mapPos, Pos.thin, hlines]
  · cases hparse.symm.trans herror

end LineBasic
