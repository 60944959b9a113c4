import LineBasic.Proofs.LongerText
import Mathlib.Data.List.Chain
import Mathlib.Data.List.DropRight
import Mathlib.Data.List.Forall2

/-!
# Where tokens stand

Every token is a stretch of the text. Its position counts the line breaks in front of the stretch and
the characters since the last one, and its end is the column behind the stretch, in the same line. Main
statement: for every source, reading token after token comes to the end or to a failure, the tokens
are stretches one behind the other with exactly these positions, and those that lead are the first
one and each one on a later line than the token before it.
-/

namespace LineBasic

set_option autoImplicit false

/-! ### Positions -/

/-- The position behind a text: line breaks and the characters since the last one are counted. -/
def Pos.behind (text : List Char) : Pos :=
  ⟨lineBreaks text + 1, (text.rtakeWhile (!isNewline ·)).length + 1⟩

/-- Two parts of a text that do not cut a line break in two. -/
def Unsplit (front rest : List Char) : Prop :=
  front.getLast? = some '\r' → rest.head? ≠ some '\n'

theorem Unsplit.tail {c : Char} {front rest : List Char} (h : Unsplit (c :: front) rest) :
    Unsplit front rest := by
  intro hlast
  refine h ?_
  rw [List.getLast?_cons, hlast]
  rfl

theorem lineBreaks_append_of_unsplit {xs ys : List Char} (h : Unsplit xs ys) :
    lineBreaks (xs ++ ys) = lineBreaks xs + lineBreaks ys := by
  fun_induction lineBreaks xs with
  | case1 => simp
  | case2 xs ih =>
    rw [List.cons_append, List.cons_append, lineBreaks, ih h.tail.tail]
    omega
  | case3 c xs hcrlf ih =>
    have hwhole : ∀ ds, c = '\r' → xs ++ ys = '\n' :: ds → False := by
      intro ds hc hds
      cases xs with
      | nil => exact h (by simp [hc]) (by simp_all)
      | cons d xs =>
        obtain ⟨rfl, -⟩ := List.cons.inj hds
        exact hcrlf xs hc rfl
    rw [List.cons_append, lineBreaks.eq_3 _ _ hwhole, ih h.tail]
    omega

theorem behind_append_line (front : List Char) {xs : List Char} (h : ∀ c ∈ xs, isNewline c = false) :
    Pos.behind (front ++ xs) = ⟨(Pos.behind front).line, (Pos.behind front).col + xs.length⟩ := by
  have hunsplit : Unsplit front xs := by
    intro _ hhead
    cases h '\n' (List.mem_of_mem_head? hhead)
  have hbreaks : lineBreaks xs = 0 := by
    simpa [lineBreaks] using Cursor.lineBreaks_append h []
  have hline : ∀ c ∈ xs.reverse, (!isNewline c) = true := fun c hc => by
    simp [h c (List.mem_reverse.mp hc)]
  have hcol : (front ++ xs).rtakeWhile (!isNewline ·) = front.rtakeWhile (!isNewline ·) ++ xs := by
    rw [List.rtakeWhile, List.reverse_append, List.takeWhile_append_of_pos hline, List.reverse_append,
      List.reverse_reverse, List.rtakeWhile]
  simp only [Pos.behind, lineBreaks_append_of_unsplit hunsplit, hbreaks, hcol, List.length_append,
    Nat.add_zero, Nat.add_right_comm]

theorem behind_append_break {front rest eol : List Char} (h : Unsplit front (eol ++ rest))
    (heol : eol = ['\r', '\n'] ∨ ∃ c, isNewline c = true ∧ eol = [c]) :
    Pos.behind (front ++ eol) = ⟨(Pos.behind front).line + 1, 1⟩ := by
  have hlast : ∃ init c, isNewline c = true ∧ eol = init ++ [c] := by
    rcases heol with rfl | ⟨c, hc, rfl⟩
    · exact ⟨['\r'], '\n', rfl, rfl⟩
    · exact ⟨[], c, hc, rfl⟩
  have hbreaks : lineBreaks eol = 1 := by
    rcases heol with rfl | ⟨c, hc, rfl⟩
    · rfl
    · simp [lineBreaks.eq_3, lineBreaks.eq_1, hc]
  have hunsplit : Unsplit front eol := by
    intro hreturn hhead
    exact h hreturn (by rw [List.head?_append, hhead]; rfl)
  obtain ⟨init, c, hc, heq⟩ := hlast
  have hcol : (front ++ eol).rtakeWhile (!isNewline ·) = [] := by
    rw [heq, ← List.append_assoc]
    exact List.rtakeWhile_concat_neg _ _ _ (by simp [hc])
  rw [Pos.behind, lineBreaks_append_of_unsplit hunsplit, hbreaks, hcol]
  rfl

namespace Cursor

/-! ### Reading only what is used -/

theorem takeWhile_take {p : Char → Bool} {cs : List Char} {n : Nat}
    (h : (cs.takeWhile p).length ≤ n) : (cs.take n).takeWhile p = cs.takeWhile p := by
  induction cs generalizing n with
  | nil => simp
  | cons c cs ih =>
    by_cases hc : p c = true
    · rw [List.takeWhile_cons_of_pos hc] at h ⊢
      cases n with
      | zero => simp at h
      | succ n =>
        rw [List.take_succ_cons, List.takeWhile_cons_of_pos hc, ih (by simpa using h)]
    · rw [List.takeWhile_cons_of_neg hc]
      cases n with
      | zero => rfl
      | succ n => rw [List.take_succ_cons, List.takeWhile_cons_of_neg hc]

theorem head?_drop_take (cs : List Char) (k n : Nat) :
    ((cs.take n).drop k).head? = if k < n then (cs.drop k).head? else none := by
  rw [List.head?_drop, List.head?_drop, List.getElem?_take]

theorem readString_take {quote : Char} {cs : List Char} {token : Token} {n : Nat}
    (h : (readString quote cs).result = .ok token) (hused : (readString quote cs).used ≤ n + 1) :
    readString quote (cs.take n) = readString quote cs := by
  unfold readString at h hused ⊢
  generalize (fun c => c != quote && !isNewline c) = p at h hused
  dsimp only at h hused ⊢
  split at h
  · rename_i hclosed
    rw [if_pos hclosed] at hused
    dsimp only at hused
    rw [takeWhile_take (by omega), head?_drop_take, if_pos (by omega : _ < n)]
  · cases h

theorem readHex_take {cs : List Char} {token : Token} {n : Nat}
    (h : (readHex cs).result = .ok token) (hused : (readHex cs).used ≤ n + 2) :
    readHex (cs.take n) = readHex cs := by
  simp only [readHex] at h hused ⊢
  split at h
  · cases h
  · rename_i hdigits
    rw [if_neg hdigits] at hused
    rw [takeWhile_take (by simpa using hused)]

theorem readDecimal_take (cs : List Char) {n : Nat} (hused : (readDecimal cs).used ≤ n) :
    readDecimal (cs.take n) = readDecimal cs := by
  simp only [readDecimal_eq] at hused ⊢
  have hwhole : (cs.takeWhile Char.isDigit).length ≤ n := by
    split at hused <;> (dsimp only at hused; omega)
  rw [takeWhile_take hwhole, head?_drop_take]
  split at hused
  · rename_i hpoint
    dsimp only at hused
    have hcut : ((cs.take n).drop (cs.takeWhile Char.isDigit).length).tail =
        (cs.drop (cs.takeWhile Char.isDigit).length).tail.take
          (n - ((cs.takeWhile Char.isDigit).length + 1)) := by
      rw [List.tail_drop, List.tail_drop, List.drop_take]
    rw [hcut, takeWhile_take (by omega), if_pos (by omega : _ < n)]
  · rename_i hpoint
    have hend : ¬(if (cs.takeWhile Char.isDigit).length < n then
        (cs.drop (cs.takeWhile Char.isDigit).length).head? else none) = some '.' := by
      split
      · exact hpoint
      · simp
    rw [if_neg hend, if_neg hpoint]

theorem two_le_readDecimal_used {c d : Char} (hc : c.isDigit = true)
    (hd : d = '.' ∨ d.isDigit = true) (cs : List Char) : 2 ≤ (readDecimal (c :: d :: cs)).used := by
  rw [readDecimal_eq]
  rcases hd with rfl | hd
  · have hpoint : ('.' : Char).isDigit = false := rfl
    simp [hc, hpoint]
  · simp only [List.takeWhile_cons, hc, hd, if_true, List.length_cons]
    split <;> (dsimp only; omega)

theorem two_le_readDecimal_used_point {d : Char} (hd : d.isDigit = true) (cs : List Char) :
    2 ≤ (readDecimal ('.' :: d :: cs)).used := by
  have hpoint : ('.' : Char).isDigit = false := rfl
  simp [readDecimal_eq, hd, hpoint]
  omega

theorem readNumber_take {c : Char} {cs : List Char} {token : Token} {n : Nat}
    (h : (readNumber c cs).result = .ok token) (hused : (readNumber c cs).used ≤ n + 1) :
    readNumber c (cs.take n) = readNumber c cs := by
  rw [readNumber_eq] at h hused
  rw [readNumber_eq, readNumber_eq]
  split
  · rename_i hzero
    subst hzero
    simp only [if_true] at h hused
    cases cs with
    | nil => simp
    | cons d ds =>
      dsimp only at h hused ⊢
      cases n with
      | zero =>
        -- only the zero is used
        rw [List.take_zero]
        dsimp only
        split at hused
        · rename_i hx
          rw [if_pos hx] at h
          simp only [readHex] at h hused
          split at hused
          · simp at hused
          · simp at hused
        · rename_i hx
          rw [if_neg hx] at h ⊢
          split at hused
          · rename_i hd
            have := two_le_readDecimal_used (c := '0') rfl hd ds
            omega
          · rename_i hd
            rw [if_neg hd] at h ⊢
            split at h
            · rename_i hsep
              rw [if_pos hsep]
            · cases h
      | succ k =>
        rw [List.take_succ_cons]
        dsimp only
        split
        · rename_i hx
          rw [if_pos hx] at h hused
          exact readHex_take h hused
        · rename_i hx
          rw [if_neg hx] at hused
          split
          · rename_i hd
            rw [if_pos hd] at hused
            exact readDecimal_take ('0' :: d :: ds) hused
          · rfl
  · rename_i hzero
    rw [if_neg hzero] at hused
    exact readDecimal_take (c :: cs) hused

theorem readSymbol_take {c : Char} {cs : List Char} {single : Token} {n : Nat}
    (hused : (readSymbol c cs single).used ≤ n + 1) :
    readSymbol c (cs.take n) single = readSymbol c cs single := by
  cases cs with
  | nil => rw [List.take_nil]
  | cons d ds =>
    cases n with
    | zero =>
      simp only [readSymbol_eq] at hused ⊢
      grind
    | succ k => rfl

theorem readToken_take {c : Char} {cs : List Char} {token : Token} {n : Nat}
    (h : (readToken c cs).result = .ok token) (hused : (readToken c cs).used ≤ n + 1) :
    readToken c (cs.take n) = readToken c cs := by
  unfold readToken at h hused ⊢
  split
  · rename_i hquote
    rw [if_pos hquote] at h hused
    exact readString_take h hused
  · rename_i hquote
    rw [if_neg hquote] at h hused
    by_cases hnumber : (c.isDigit || c == '.' && (cs.head?.map Char.isDigit).getD false) = true
    · rw [if_pos hnumber] at h hused ⊢
      have hhead : (c.isDigit || c == '.' && ((cs.take n).head?.map Char.isDigit).getD false) =
          true := by
        cases n with
        | zero =>
          cases hc : c.isDigit with
          | true => rfl
          | false =>
            -- a point is used together with the digit behind it
            cases cs with
            | nil => simp [hc] at hnumber
            | cons d ds =>
              obtain ⟨rfl, hd⟩ : c = '.' ∧ d.isDigit = true := by simpa [hc] using hnumber
              have htwo := two_le_readDecimal_used_point hd ds
              rw [readNumber_eq, if_neg (by decide)] at hused
              omega
        | succ k =>
          cases cs with
          | nil => simpa using hnumber
          | cons d ds => exact hnumber
      rw [if_pos hhead]
      exact readNumber_take h hused
    · have hhead : ¬(c.isDigit || c == '.' && ((cs.take n).head?.map Char.isDigit).getD false) =
          true := by
        cases n with
        | zero => grind
        | succ k =>
          cases cs with
          | nil => simpa using hnumber
          | cons d ds => exact hnumber
      rw [if_neg hnumber] at h hused ⊢
      rw [if_neg hhead]
      split
      · rename_i single hsingle
        rw [hsingle] at hused
        exact readSymbol_take hused
      · rename_i hword
        rw [hword] at hused
        rw [← List.take_succ_cons, readWord, readWord, takeWhile_take hused]

/-- Where a token starts is seen from its first two characters. -/
theorem step_code_take {c : Char} {cs : List Char} (h : Gap.code.step c cs = none) (n : Nat) :
    Gap.code.step c (cs.take n) = none := by
  have hhead : (cs.take n).head? = some c → cs.head? = some c := by
    cases n with
    | zero => simp
    | succ n => simp [List.head?_take]
  simp only [Gap.step] at h ⊢
  grind

/-! ### Cursors in a text -/

/-- The cursor stands behind `front` in the text, and not within a line break. -/
structure Past (text front : List Char) (c : Cursor) : Prop where
  text : text = front ++ c.rest
  pos : c.pos = Pos.behind front
  unsplit : Unsplit front c.rest

theorem past_ofSource (source : String) : Past source.toList [] (ofSource source) :=
  ⟨rfl, rfl, fun h => by cases h⟩

theorem Past.advance {text front : List Char} {c : Cursor} (h : Past text front c) {n : Nat}
    (hn : n ≤ c.rest.length) (hline : ∀ d ∈ c.rest.take n, isNewline d = false) :
    Past text (front ++ c.rest.take n) (c.advance n) where
  text := by
    rw [Cursor.advance, List.append_assoc, List.take_append_drop]
    exact h.text
  pos := by
    rw [behind_append_line _ hline, List.length_take_of_le hn, ← h.pos]
    rfl
  unsplit := by
    intro hlast
    cases htake : c.rest.take n with
    | nil =>
      rw [htake, List.append_nil] at hlast
      obtain rfl | hnil := List.take_eq_nil_iff.mp htake
      · exact h.unsplit hlast
      · simp [Cursor.advance, hnil]
    | cons d ds =>
      rw [htake, List.getLast?_append_of_ne_nil _ (List.cons_ne_nil d ds)] at hlast
      rw [htake] at hline
      cases hline '\r' (List.mem_of_getLast? hlast)

theorem Past.newline {text front rest : List Char} {pos : Pos} {lead lead' : Bool}
    (eol : List Char) (h : Past text front ⟨eol ++ rest, pos, lead⟩)
    (heol : eol = ['\r', '\n'] ∨ ∃ c, isNewline c = true ∧ eol = [c])
    (hrest : eol = ['\r'] → rest.head? ≠ some '\n') :
    Past text (front ++ eol) ⟨rest, ⟨pos.line + 1, 1⟩, lead'⟩ where
  text := by rw [List.append_assoc]; exact h.text
  pos := by rw [behind_append_break h.unsplit heol, ← h.pos]
  unsplit := by
    intro hlast
    rcases heol with rfl | ⟨c, hc, rfl⟩
    · simp at hlast
    · exact hrest (by simpa using hlast)

theorem Past.skipFrom {text front cs : List Char} {pos : Pos} {lead : Bool} (gap : Gap)
    (h : Past text front ⟨cs, pos, lead⟩) :
    ∃ skipped, Past text (front ++ skipped) (skipFrom gap cs pos lead) := by
  fun_induction Cursor.skipFrom gap cs pos lead generalizing front with
  | case1 => exact ⟨[], by rwa [List.append_nil]⟩
  | case2 gap pos lead cs ih =>
    obtain ⟨skipped, hs⟩ := ih (h.newline ['\r', '\n'] (.inl rfl) (by simp))
    exact ⟨_, by rwa [List.append_assoc] at hs⟩
  | case3 gap c cs pos lead hcrlf hc ih =>
    have hrest : [c] = ['\r'] → cs.head? ≠ some '\n' := by
      intro hreturn hhead
      obtain ⟨ds, rfl⟩ := List.head?_eq_some_iff.mp hhead
      exact hcrlf ds (by simpa using hreturn) rfl
    obtain ⟨skipped, hs⟩ := ih (h.newline [c] (.inr ⟨c, hc, rfl⟩) hrest)
    exact ⟨_, by rwa [List.append_assoc] at hs⟩
  | case4 gap c cs pos lead hcrlf hc next hstep ih =>
    obtain ⟨skipped, hs⟩ := ih (h.advance (Nat.le_add_left 1 _) (by simpa using hc))
    exact ⟨_, by rwa [List.append_assoc] at hs⟩
  | case5 => exact ⟨[], by rwa [List.append_nil]⟩

theorem skipFrom_step {gap : Gap} {cs : List Char} {pos : Pos} {lead : Bool} {ch : Char}
    {rest : List Char} (h : (skipFrom gap cs pos lead).rest = ch :: rest) :
    Gap.code.step ch rest = none := by
  fun_induction skipFrom gap cs pos lead with
  | case1 => cases h
  | case2 gap pos lead cs ih => exact ih h
  | case3 gap pos lead c cs hcrlf hc ih => exact ih h
  | case4 gap pos lead c cs hcrlf hc next hstep ih => exact ih h
  | case5 gap pos lead c cs hcrlf hc hstep =>
    obtain ⟨rfl, rfl⟩ := List.cons.inj h
    obtain rfl := eq_code_of_step_eq_none hstep
    exact hstep

/-- What is behind a gap leads its line if a line was left or nothing was read on it before. -/
theorem skipFrom_lead_iff (gap : Gap) (cs : List Char) (pos : Pos) (lead : Bool) :
    (skipFrom gap cs pos lead).lead = true ↔
      lead = true ∨ pos.line < (skipFrom gap cs pos lead).pos.line := by
  fun_induction skipFrom gap cs pos lead with
  | case1 => simp
  | case2 gap pos lead cs ih =>
    exact iff_of_true (skipFrom_lead _ _ _ rfl) (.inr (le_skipFrom_line _ _ ⟨_ + 1, 1⟩ true))
  | case3 gap pos lead c cs hcrlf hc ih =>
    exact iff_of_true (skipFrom_lead _ _ _ rfl) (.inr (le_skipFrom_line _ _ ⟨_ + 1, 1⟩ true))
  | case4 gap pos lead c cs hcrlf hc next hstep ih => exact ih
  | case5 => simp

/-! ### Reading token after token -/

/-- Reading on from a cursor gives these tokens and comes to this end. -/
inductive Gives : Cursor → Lexed → Prop where
  | stop {c c' : Cursor} (h : c.scan = (.ok none, c')) : Gives c ⟨[], none, c'.pos⟩
  | failure {c c' : Cursor} {e : Error} (h : c.scan = (.error e, c')) : Gives c ⟨[], some e, c'.pos⟩
  | token {c c' : Cursor} {lexeme : Lexeme} {more : Lexed} (h : c.scan = (.ok (some lexeme), c'))
      (hmore : Gives c' more) : Gives c { more with lexemes := lexeme :: more.lexemes }

/-- Reading comes to an end, since each token uses up some of the text. -/
theorem exists_gives (c : Cursor) : ∃ r, Gives c r := by
  induction hn : c.rest.length using Nat.strongRecOn generalizing c with
  | ind n ih =>
    rcases hscan : c.scan with ⟨e | _ | lexeme, c'⟩
    · exact ⟨_, .failure hscan⟩
    · exact ⟨_, .stop hscan⟩
    · have hlength := scan_length_le hscan
      simp only [Option.isSome_some, if_true] at hlength
      obtain ⟨more, hmore⟩ := ih c'.rest.length (by omega) c' rfl
      exact ⟨_, .token hscan hmore⟩

theorem Gives.collect_eq {c : Cursor} {r : Lexed} (h : Gives c r) {n : Nat} (hn : c.rest.length < n)
    (last : Option Lexeme) : Lexer.collect n ⟨c, last, false⟩ = r := by
  induction h generalizing n last with
  | stop h | failure h =>
    obtain ⟨n, rfl⟩ := Nat.exists_eq_succ_of_ne_zero (Nat.ne_zero_of_lt hn)
    simp only [Lexer.collect, Lexer.next, Lexer.fill, h, Bool.false_eq_true, if_false, Lexer.pos]
  | token h hmore ih =>
    obtain ⟨n, rfl⟩ := Nat.exists_eq_succ_of_ne_zero (Nat.ne_zero_of_lt hn)
    have hlength := scan_length_le h
    simp only [Option.isSome_some, if_true] at hlength
    simp only [Lexer.collect, Lexer.next, Lexer.fill, h, Bool.false_eq_true, if_false,
      ih (n := n) (by omega)]

theorem Gives.lex_eq {source : String} {r : Lexed} (h : Gives (ofSource source) r) :
    lex source = r :=
  h.collect_eq (Nat.lt_succ_of_le (Nat.le_of_eq String.length_toList)) none

theorem gives_lex (source : String) : Gives (ofSource source) (lex source) := by
  obtain ⟨r, hr⟩ := exists_gives (ofSource source)
  rwa [hr.lex_eq]

end Cursor

/-! ### Tokens as stretches of the text -/

/-- The token is the stretch of the text from the offset `start` to the offset `stop`. -/
structure Lexeme.Covers (text : List Char) (lexeme : Lexeme) (start stop : Nat) : Prop where
  nonempty : start < stop
  within : stop ≤ text.length
  pos : lexeme.pos = Pos.behind (text.take start)
  past : Pos.behind (text.take stop) = ⟨lexeme.pos.line, lexeme.past⟩
  /-- The stretch for itself reads as this token. -/
  alone : lex (String.ofList ((text.take stop).drop start)) =
    ⟨[⟨lexeme.token, ⟨1, 1⟩, stop - start + 1, true⟩], none, ⟨1, stop - start + 1⟩⟩

theorem lex_of_readToken {ch : Char} {cs : List Char} {token : Token}
    (hstep : Cursor.Gap.code.step ch cs = none)
    (hread : Cursor.readToken ch cs = ⟨.ok token, cs.length + 1⟩) :
    lex (String.ofList (ch :: cs)) =
      ⟨[⟨token, ⟨1, 1⟩, cs.length + 1 + 1, true⟩], none, ⟨1, cs.length + 1 + 1⟩⟩ := by
  have hnewline := isNewline_of_not_isBlank (Cursor.step_code_eq_none hstep).1
  have hcrlf : ∀ ds, ch = '\r' → cs = '\n' :: ds → False := by
    rintro ds rfl
    cases hnewline
  have hskip : (Cursor.ofSource (String.ofList (ch :: cs))).skipGap = ⟨ch :: cs, ⟨1, 1⟩, true⟩ := by
    rw [Cursor.skipGap, Cursor.ofSource, String.toList_ofList, Cursor.skipFrom.eq_3 _ _ _ _ _ hcrlf,
      if_neg (by simp [hnewline]), hstep]
  have hscan : (Cursor.ofSource (String.ofList (ch :: cs))).scan =
      (.ok (some ⟨token, ⟨1, 1⟩, 1 + (cs.length + 1), true⟩), ⟨[], ⟨1, 1 + (cs.length + 1)⟩, false⟩) := by
    rw [Cursor.scan_eq, hskip, Cursor.scanAt_of_ok rfl (by rw [hread])]
    simp [hread, Cursor.advance]
  rw [(Cursor.Gives.token hscan (.stop rfl)).lex_eq, Nat.add_comm 1]
  rfl

namespace Cursor

/-- The token that is read next covers a stretch that is not behind the cursor, and the cursor moves
to the end of the stretch. -/
theorem Past.scan {text front : List Char} {c c' : Cursor} {lexeme : Lexeme} (h : Past text front c)
    (hscan : c.scan = (.ok (some lexeme), c')) :
    ∃ start front', front.length ≤ start ∧ lexeme.Covers text start front'.length ∧
      Past text front' c' := by
  obtain ⟨skipped, hbefore⟩ := Past.skipFrom .code h
  change Past text (front ++ skipped) c.skipGap at hbefore
  obtain ⟨ch, cs, hrest, hread, -, -, rfl⟩ := scan_of_token hscan
  obtain ⟨token, pos, past, lead⟩ := lexeme
  rw [scan_eq, scanAt_of_ok hrest hread] at hscan
  have hlexeme := Option.some.inj (Except.ok.inj (Prod.mk.inj hscan).1)
  have hstep : Gap.code.step ch cs = none := skipFrom_step hrest
  obtain ⟨hblank, hhash⟩ := step_code_eq_none hstep
  have hpos := readToken_used_pos hblank hhash hread
  have hused := readToken_used_le hread
  have hline := take_used_line (isNewline_of_not_isBlank hblank) hread
  generalize hn : (readToken ch cs).used = n at hpos hused hline hlexeme
  have hafter : Past text (front ++ skipped ++ (ch :: cs).take n) (c.skipGap.advance n) := by
    rw [← hrest] at hline ⊢
    exact hbefore.advance (by simpa [hrest] using hused) hline
  have hlength : (front ++ skipped ++ (ch :: cs).take n).length = (front ++ skipped).length + n := by
    rw [List.length_append, List.length_take_of_le (by simpa using hused)]
  have htake : text.take (front ++ skipped ++ (ch :: cs).take n).length =
      front ++ skipped ++ (ch :: cs).take n := by
    rw [hafter.text]
    exact List.take_left
  refine ⟨(front ++ skipped).length, front ++ skipped ++ (ch :: cs).take n, by simp, ?_,
    hafter.text, hafter.pos, hafter.unsplit⟩
  obtain ⟨-, rfl, rfl, rfl⟩ := Lexeme.mk.inj hlexeme
  constructor
  case nonempty => omega
  case within =>
    have hwhole := congrArg List.length hafter.text
    rw [List.length_append] at hwhole
    omega
  case pos =>
    rw [hbefore.pos, hbefore.text]
    exact congrArg Pos.behind List.take_left.symm
  case past => rw [htake, ← hafter.pos]; rfl
  case alone =>
    -- the stretch is read as in the text, where nothing behind it was looked at
    obtain ⟨n, rfl⟩ : ∃ k, n = k + 1 := ⟨n - 1, by omega⟩
    have htaken : (cs.take n).length = n := List.length_take_of_le (by omega)
    have halone : readToken ch (cs.take n) = ⟨.ok token, (cs.take n).length + 1⟩ := by
      rw [readToken_take hread (Nat.le_of_eq hn), htaken, ← hread, ← hn]
    rw [htake, List.drop_left, List.take_succ_cons, lex_of_readToken (step_code_take hstep n) halone,
      ← List.take_succ_cons, hlength, htaken, Nat.add_sub_cancel_left]

theorem Past.scan_end {text front : List Char} {c c' : Cursor} (h : Past text front c)
    (hscan : c.scan = (.ok none, c')) : c'.pos = Pos.behind text := by
  obtain ⟨skipped, hbefore⟩ := Past.skipFrom .code h
  obtain ⟨rfl, hrest, -⟩ := scan_of_end hscan
  change Past text (front ++ skipped) c.skipGap at hbefore
  rw [hbefore.pos, hbefore.text, hrest, List.append_nil]

theorem scan_lead {c c' : Cursor} {lexeme : Lexeme} (h : c.scan = (.ok (some lexeme), c')) :
    (lexeme.lead = true ↔ c.lead = true ∨ c.pos.line < lexeme.pos.line) ∧
      c'.lead = false ∧ c'.pos.line = lexeme.pos.line := by
  obtain ⟨ch, cs, -, -, hpos, hlead, rfl⟩ := scan_of_token h
  rw [hpos, hlead]
  exact ⟨skipFrom_lead_iff .code c.rest c.pos c.lead, rfl, rfl⟩

namespace Gives

variable {c : Cursor} {r : Lexed} (h : Gives c r)
include h

theorem length_le : r.lexemes.length ≤ c.rest.length := by
  induction h with
  | stop | failure => exact Nat.zero_le _
  | token h hmore ih =>
    have hlength := scan_length_le h
    simp only [Option.isSome_some, if_true] at hlength
    rw [List.length_cons]
    omega

theorem covers {text front : List Char} (hpast : Past text front c) :
    ∃ spans : List (Nat × Nat),
      List.Forall₂ (fun lexeme span => lexeme.Covers text span.1 span.2) r.lexemes spans ∧
      spans.Pairwise (fun span span' => span.2 ≤ span'.1) ∧ ∀ span ∈ spans, front.length ≤ span.1 := by
  induction h generalizing front with
  | stop | failure => exact ⟨[], .nil, .nil, by simp⟩
  | token h hmore ih =>
    obtain ⟨start, front', hstart, hcovers, hpast'⟩ := hpast.scan h
    obtain ⟨spans, hspans, hordered, hbehind⟩ := ih hpast'
    refine ⟨(start, front'.length) :: spans, .cons hcovers hspans, .cons hbehind hordered, ?_⟩
    intro span hspan
    rcases List.mem_cons.mp hspan with rfl | hspan
    · exact hstart
    · have hnonempty := hcovers.nonempty
      have hlater := hbehind span hspan
      omega

theorem stop_eq {text front : List Char} (hpast : Past text front c) (hok : r.failure = none) :
    r.stop = Pos.behind text := by
  induction h generalizing front with
  | stop h => exact hpast.scan_end h
  | failure => cases hok
  | token h hmore ih =>
    obtain ⟨-, _, -, -, hpast'⟩ := hpast.scan h
    exact ih hpast' hok

theorem leads :
    (∀ lexeme ∈ r.lexemes.head?, lexeme.lead = true ↔ c.lead = true ∨ c.pos.line < lexeme.pos.line) ∧
      r.lexemes.IsChain fun before after => after.lead = true ↔ before.pos.line < after.pos.line := by
  induction h with
  | stop | failure => exact ⟨by simp, .nil⟩
  | token h hmore ih =>
    obtain ⟨hlead, hlead', hline⟩ := scan_lead h
    refine ⟨by simpa using hlead, ih.2.cons ?_⟩
    intro after hafter
    rw [ih.1 after hafter, hlead', hline]
    simp

end Gives

end Cursor

/-! ### All tokens of a source -/

/-- What the first `n` calls of `next` give. -/
def Lexer.replies : Nat → Lexer → List (Except Error (Option Lexeme))
  | 0, _ => []
  | n + 1, l => l.next.1 :: l.next.2.replies n

/-- What `next` gives behind the last token. -/
def Lexed.ending (r : Lexed) : Except Error (Option Lexeme) :=
  match r.failure with
  | none => .ok none
  | some e => .error e

theorem Cursor.Gives.replies_eq {c : Cursor} {r : Lexed} (h : c.Gives r) (last : Option Lexeme) :
    Lexer.replies (r.lexemes.length + 1) ⟨c, last, false⟩ =
      r.lexemes.map (fun lexeme => .ok (some lexeme)) ++ [r.ending] := by
  induction h generalizing last with
  | stop h | failure h => simp [Lexer.replies, Lexer.next, Lexer.fill, h, Lexed.ending]
  | @token c c' lexeme more h hmore ih =>
    have hnext : Lexer.next ⟨c, last, false⟩ = (.ok (some lexeme), ⟨c', some lexeme, false⟩) := by
      simp [Lexer.next, Lexer.fill, h]
    rw [List.length_cons, Lexer.replies, hnext, ih, List.map_cons, List.cons_append]
    rfl

/-- The tokens of a source stand where they say, in order and apart from each other, and calling
`next` again and again gives all of them and then the end of the source or a failure. -/
theorem lexemes_placed (source : String) :
    let read := lex source
    read.lexemes.length ≤ source.length ∧
    (Lexer.ofSource source).replies (read.lexemes.length + 1) =
      read.lexemes.map (fun lexeme => .ok (some lexeme)) ++ [read.ending] ∧
    (read.failure = none → read.stop = Pos.behind source.toList) ∧
    (∃ spans : List (Nat × Nat),
      List.Forall₂ (fun lexeme span => lexeme.Covers source.toList span.1 span.2) read.lexemes spans ∧
      spans.Pairwise fun span span' => span.2 ≤ span'.1) ∧
    (∀ lexeme ∈ read.lexemes.head?, lexeme.lead = true) ∧
    read.lexemes.IsChain fun before after => after.lead = true ↔ before.pos.line < after.pos.line := by
  have hgives := Cursor.gives_lex source
  have hpast := Cursor.past_ofSource source
  obtain ⟨spans, hspans, hordered, -⟩ := hgives.covers hpast
  obtain ⟨hfirst, hlead⟩ := hgives.leads
  refine ⟨?_, hgives.replies_eq none, hgives.stop_eq hpast, ⟨spans, hspans, hordered⟩, ?_, hlead⟩
  · rw [← String.length_toList]
    exact hgives.length_le
  · exact fun lexeme hhead => (hfirst lexeme hhead).mpr (.inl rfl)

end LineBasic
