import LineBasic.Proofs.TokenProgress

/-!
# A text that goes on in a new line

Neither a token nor the end of a comment line reaches over a line break. So when a text goes on in a
new line, its tokens stay as they are, and where it ended the scanner comes to the new line. Only a
block comment that is still open would swallow what follows.
-/

namespace LineBasic

set_option autoImplicit false

/-- The number of line breaks in a text. -/
def lineBreaks : List Char → Nat
  | [] => 0
  | '\r' :: '\n' :: cs => lineBreaks cs + 1
  | c :: cs => lineBreaks cs + if isNewline c then 1 else 0

/-- The number of lines of a source; what follows the last line break is a line, too. -/
def lineCount (source : String) : Nat :=
  lineBreaks source.toList + 1

theorem isNewline_of_not_isBlank {c : Char} (h : Text.isBlank c = false) : isNewline c = false := by
  rw [← Bool.not_eq_true] at h ⊢
  intro hc
  refine h ?_
  obtain rfl | rfl : c = '\n' ∨ c = '\r' := by simpa [isNewline] using hc
  all_goals decide

theorem takeWhile_append_stop {p : Char → Bool} {stop : Char} (hp : p stop = false)
    (cs rest : List Char) : (cs ++ stop :: rest).takeWhile p = cs.takeWhile p := by
  induction cs with
  | nil => exact List.takeWhile_cons_of_neg (by simp [hp])
  | cons c cs ih => rw [List.cons_append, List.takeWhile_cons, List.takeWhile_cons, ih]

namespace Cursor

/-! ### Tokens -/

theorem readDecimal_eq (cs : List Char) :
    readDecimal cs =
      let whole := cs.takeWhile Char.isDigit
      let more := cs.drop whole.length
      if more.head? = some '.' then
        let fraction := more.tail.takeWhile Char.isDigit
        ⟨.ok (.number (Number.ofDecimal whole fraction 0)), whole.length + 1 + fraction.length⟩
      else ⟨.ok (.number (Number.ofDecimal whole [] 0)), whole.length⟩ := by
  unfold readDecimal
  dsimp only
  cases cs.drop (cs.takeWhile Char.isDigit).length with
  | nil => rfl
  | cons d ds =>
    by_cases hd : d = '.'
    · subst hd
      rfl
    · rw [if_neg (by simpa using hd)]
      split
      · rename_i heq
        exact absurd (List.cons.inj heq).1 hd
      · rfl

theorem readNumber_eq (c : Char) (cs : List Char) :
    readNumber c cs =
      if c = '0' then
        match cs with
        | [] => ⟨.ok (.number 0), 1⟩
        | d :: ds =>
          if d = 'x' ∨ d = 'X' then readHex ds
          else if d = '.' ∨ d.isDigit then readDecimal (c :: cs)
          else if isSeparator d then ⟨.ok (.number 0), 1⟩
          else ⟨.error "WRONG NUMBER FORMAT", 0⟩
      else readDecimal (c :: cs) := by
  unfold readNumber
  split
  · rfl
  · rfl
  · rename_i d ds hx hX
    have hd : ¬(d = 'x' ∨ d = 'X') := fun h => h.elim hx hX
    rw [if_pos rfl]
    dsimp only
    rw [if_neg hd]
  · rfl
  · rename_i h₁ h₂ h₃ h₄
    have hc : c ≠ '0' := by
      rintro rfl
      cases cs with
      | nil => exact h₄ rfl rfl
      | cons d ds => exact h₃ d ds rfl rfl
    rw [if_neg hc]

theorem readSymbol_eq (c : Char) (cs : List Char) (single : Token) :
    readSymbol c cs single =
      if c = '<' ∧ cs.head? = some '>' then ⟨.ok (.operator .notEqual), 2⟩
      else if c = '<' ∧ cs.head? = some '=' then ⟨.ok (.operator .lessEqual), 2⟩
      else if c = '>' ∧ cs.head? = some '=' then ⟨.ok (.operator .greaterEqual), 2⟩
      else ⟨.ok single, 1⟩ := by
  unfold readSymbol
  split
  · rename_i hhead
    rw [if_pos ⟨rfl, hhead⟩]
  · rename_i hhead
    simp [hhead]
  · rename_i hhead
    simp [hhead]
  · rename_i h₁ h₂ h₃
    rw [if_neg fun h => h₁ h.1 h.2, if_neg fun h => h₂ h.1 h.2, if_neg fun h => h₃ h.1 h.2]

theorem drop_takeWhile_append (p : Char → Bool) (cs more : List Char) :
    (cs ++ more).drop (cs.takeWhile p).length = cs.drop (cs.takeWhile p).length ++ more :=
  List.drop_append_of_le_length (List.takeWhile_sublist _).length_le

theorem eq_of_isNewline {c : Char} (h : isNewline c = true) : c = '\n' ∨ c = '\r' := by
  simpa [isNewline] using h

theorem readString_append {stop : Char} (hstop : isNewline stop = true) {quote : Char}
    (hquote : stop ≠ quote) (cs rest : List Char) :
    readString quote (cs ++ stop :: rest) = readString quote cs := by
  unfold readString
  generalize hp : (fun c => c != quote && !isNewline c) = p
  have hp : p stop = false := by simp [← hp, hstop]
  simp only [takeWhile_append_stop hp, drop_takeWhile_append]
  cases cs.drop (cs.takeWhile p).length with
  | nil => simp [hquote]
  | cons d ds => rfl

theorem length_lt_of_head? {cs : List Char} {n : Nat} {c : Char} (h : (cs.drop n).head? = some c) :
    n < cs.length := by
  rw [List.head?_drop] at h
  exact (List.getElem?_eq_some_iff.mp h).1

theorem readString_append_of_ok {quote : Char} {cs : List Char} {token : Token}
    (h : (readString quote cs).result = .ok token) (more : List Char) :
    readString quote (cs ++ more) = readString quote cs := by
  unfold readString at h ⊢
  generalize (fun c => c != quote && !isNewline c) = p at h
  dsimp only at h ⊢
  split at h
  · rename_i hclosed
    have hlength := length_lt_of_head? hclosed
    rw [List.takeWhile_append, if_neg (Nat.ne_of_lt hlength),
      List.drop_append_of_le_length (Nat.le_of_lt hlength), List.head?_append, hclosed]
    rfl
  · cases h

/-- Characters that end every token but a string. -/
def EndsToken (c : Char) : Prop :=
  c = '\n' ∨ c = '\r' ∨ c = ' '

theorem endsToken_of_isNewline {c : Char} (h : isNewline c = true) : EndsToken c :=
  (eq_of_isNewline h).imp_right .inl

section

variable {stop : Char} (hstop : EndsToken stop)
include hstop

theorem readHex_append (cs rest : List Char) : readHex (cs ++ stop :: rest) = readHex cs := by
  have hhex : Number.isHexDigit stop = false := by
    rcases hstop with rfl | rfl | rfl <;> decide
  simp only [readHex, takeWhile_append_stop hhex]

theorem readDecimal_append (cs rest : List Char) :
    readDecimal (cs ++ stop :: rest) = readDecimal cs := by
  have hdigit : stop.isDigit = false ∧ stop ≠ '.' := by
    rcases hstop with rfl | rfl | rfl <;> decide
  simp only [readDecimal_eq, takeWhile_append_stop hdigit.1, drop_takeWhile_append]
  cases cs.drop (cs.takeWhile Char.isDigit).length with
  | nil => simp [hdigit.2]
  | cons d ds =>
    simp only [List.cons_append, List.head?_cons, List.tail_cons, takeWhile_append_stop hdigit.1]
    rfl

theorem readNumber_append (c : Char) (cs rest : List Char) :
    readNumber c (cs ++ stop :: rest) = readNumber c cs := by
  have hother : ¬(stop = 'x' ∨ stop = 'X') ∧ ¬(stop = '.' ∨ stop.isDigit = true) ∧
      isSeparator stop = true := by
    rcases hstop with rfl | rfl | rfl <;> decide
  have hdecimal := readDecimal_append hstop (c :: cs) rest
  rw [readNumber_eq, readNumber_eq]
  split
  · cases cs with
    | nil => simp only [List.nil_append, hother, if_false, if_true]
    | cons d ds =>
      rw [List.cons_append] at hdecimal
      simp only [List.cons_append, readHex_append hstop, ← hdecimal]
  · exact hdecimal

theorem readSymbol_append {c : Char} (cs rest : List Char) (single : Token) :
    readSymbol c (cs ++ stop :: rest) single = readSymbol c cs single := by
  cases cs with
  | nil =>
    have hfollows : ¬stop = '>' ∧ ¬stop = '=' := by
      rcases hstop with rfl | rfl | rfl <;> decide
    simp [readSymbol_eq, hfollows]
  | cons d ds => rfl

theorem readWord_append (cs rest : List Char) : readWord (cs ++ stop :: rest) = readWord cs := by
  have hname : isNameChar stop = false := by
    rcases hstop with rfl | rfl | rfl <;> decide
  simp only [readWord, takeWhile_append_stop hname]

theorem readToken_append_of_string {c : Char} {cs rest : List Char}
    (hstring : c = '"' ∨ c = '\'' → readString c (cs ++ stop :: rest) = readString c cs) :
    readToken c (cs ++ stop :: rest) = readToken c cs := by
  have hdigit : stop.isDigit = false := by
    rcases hstop with rfl | rfl | rfl <;> decide
  have hhead : ((cs ++ stop :: rest).head?.map Char.isDigit).getD false =
      (cs.head?.map Char.isDigit).getD false := by
    cases cs with
    | nil => simp [hdigit]
    | cons d ds => rfl
  unfold readToken
  rw [hhead]
  split
  · rename_i hquote
    exact hstring hquote
  · split
    · exact readNumber_append hstop c cs rest
    · split
      · exact readSymbol_append hstop cs rest _
      · exact readWord_append hstop (c :: cs) rest

/-- A token that could be read is the same whatever follows behind its end. -/
theorem readToken_append_of_ok {c : Char} {cs : List Char} {token : Token}
    (h : (readToken c cs).result = .ok token) (rest : List Char) :
    readToken c (cs ++ stop :: rest) = readToken c cs := by
  refine readToken_append_of_string hstop fun hquote => ?_
  rw [readToken, if_pos hquote] at h
  exact readString_append_of_ok h _

end

theorem readToken_append {stop : Char} (hstop : isNewline stop = true) (c : Char)
    (cs rest : List Char) : readToken c (cs ++ stop :: rest) = readToken c cs := by
  refine readToken_append_of_string (endsToken_of_isNewline hstop) fun hquote => ?_
  refine readString_append hstop ?_ cs rest
  have hquotes : stop ≠ '"' ∧ stop ≠ '\'' := by
    rcases eq_of_isNewline hstop with rfl | rfl <;> decide
  rcases hquote with rfl | rfl
  · exact hquotes.1
  · exact hquotes.2

/-! ### A token stays in its line -/

theorem length_takeWhile_le (p : Char → Bool) (cs : List Char) : (cs.takeWhile p).length ≤ cs.length :=
  (List.takeWhile_sublist _).length_le

theorem readString_used_le {quote : Char} {cs : List Char} {token : Token}
    (h : (readString quote cs).result = .ok token) : (readString quote cs).used ≤ cs.length + 1 := by
  simp only [readString] at h ⊢
  split at h
  · rename_i hclosed
    have hlength := length_lt_of_head? hclosed
    rw [if_pos hclosed]
    dsimp only
    omega
  · cases h

theorem readDecimal_used_le (cs : List Char) : (readDecimal cs).used ≤ cs.length := by
  have hwhole := length_takeWhile_le Char.isDigit cs
  rw [readDecimal_eq]
  dsimp only
  split
  · rename_i hpoint
    have hlength := length_lt_of_head? hpoint
    have hfraction := length_takeWhile_le Char.isDigit
      (cs.drop (cs.takeWhile Char.isDigit).length).tail
    simp only [List.length_tail, List.length_drop] at hfraction ⊢
    omega
  · exact hwhole

theorem readNumber_used_le {c : Char} {cs : List Char} {token : Token}
    (h : (readNumber c cs).result = .ok token) : (readNumber c cs).used ≤ cs.length + 1 := by
  have hdecimal := readDecimal_used_le (c :: cs)
  rw [readNumber_eq] at h ⊢
  split
  · rename_i hzero
    rw [if_pos hzero] at h
    cases cs with
    | nil => exact Nat.le_refl _
    | cons d ds =>
      dsimp only at h ⊢
      split
      · have hdigits := length_takeWhile_le Number.isHexDigit ds
        simp only [readHex, List.length_cons]
        split <;> (dsimp only; omega)
      · split
        · exact hdecimal
        · split <;> simp
  · exact hdecimal

theorem readSymbol_used_le (c : Char) (cs : List Char) (single : Token) :
    (readSymbol c cs single).used ≤ cs.length + 1 := by
  have htwo {d : Char} (h : cs.head? = some d) : 2 ≤ cs.length + 1 := by
    cases cs with
    | nil => cases h
    | cons d ds => simp
  rw [readSymbol_eq]
  split
  · rename_i h
    exact htwo h.2
  · split
    · rename_i h
      exact htwo h.2
    · split
      · rename_i h
        exact htwo h.2
      · simp

theorem readToken_used_le {c : Char} {cs : List Char} {token : Token}
    (h : (readToken c cs).result = .ok token) : (readToken c cs).used ≤ cs.length + 1 := by
  unfold readToken at h ⊢
  split
  · rename_i hquote
    rw [if_pos hquote] at h
    exact readString_used_le h
  · rename_i hquote
    rw [if_neg hquote] at h
    split
    · rename_i hnumber
      rw [if_pos hnumber] at h
      exact readNumber_used_le h
    · split
      · exact readSymbol_used_le c cs _
      · exact length_takeWhile_le isNameChar (c :: cs)

theorem take_used_line {c : Char} {cs : List Char} {token : Token} (hc : isNewline c = false)
    (h : (readToken c cs).result = .ok token) :
    ∀ d ∈ (c :: cs).take (readToken c cs).used, isNewline d = false := by
  -- the token is the one that is read from what stands before the next line break
  let line := cs.takeWhile (!isNewline ·)
  have hline : ∀ d ∈ c :: line, isNewline d = false := by
    intro d hd
    rcases List.mem_cons.mp hd with rfl | hd
    · exact hc
    · simpa using List.all_eq_true.mp List.all_takeWhile d hd
  have hsplit : cs = line ++ cs.dropWhile (!isNewline ·) := List.takeWhile_append_dropWhile.symm
  have hsame : readToken c cs = readToken c line := by
    cases hrest : cs.dropWhile (!isNewline ·) with
    | nil => rw [hrest, List.append_nil] at hsplit; rw [← hsplit]
    | cons stop rest =>
      have hstop : isNewline stop = true := by
        have hhead := List.head?_dropWhile_not (!isNewline ·) cs
        rw [hrest] at hhead
        simpa using hhead
      rw [hrest] at hsplit
      rw [hsplit, readToken_append hstop]
  have hused : (readToken c cs).used ≤ (c :: line).length := by
    rw [hsame] at h ⊢
    exact readToken_used_le h
  intro d hd
  generalize (readToken c cs).used = n at hused hd
  rw [hsplit, ← List.cons_append, List.take_append_of_le_length hused] at hd
  exact hline d (List.mem_of_mem_take hd)

/-! ### Gaps -/

/-- The gap at the end of a text; nothing if a token starts in the text. -/
def Gap.past : Gap → List Char → Option Gap
  | gap, [] => some gap
  | gap, '\r' :: '\n' :: cs => gap.nextLine.past cs
  | gap, c :: cs =>
    if isNewline c then gap.nextLine.past cs
    else match gap.step c cs with
      | some next => next.past cs
      | none => none

/-- The runs of block comments are no line breaks. -/
def Gap.Proper : Gap → Prop
  | code | comment => True
  | block mark _ _ => isNewline mark = false

theorem Gap.Proper.nextLine {gap : Gap} (h : gap.Proper) : gap.nextLine.Proper := by
  cases gap <;> exact h

theorem Gap.Proper.step {gap next : Gap} (h : gap.Proper) {c : Char} {cs : List Char}
    (hstep : gap.step c cs = some next) : next.Proper := by
  cases gap with
  | code =>
    simp only [Gap.step] at hstep
    split at hstep
    · cases hstep
      trivial
    · split at hstep
      · cases hstep
        trivial
      · split at hstep
        · rename_i hmark
          cases hstep
          split
          · rcases hmark.1 with rfl | rfl <;> rfl
          · trivial
        · cases hstep
  | comment =>
    cases hstep
    trivial
  | block mark length fresh =>
    simp only [Gap.step] at hstep
    split at hstep
    · cases hstep
      exact h
    · split at hstep
      · cases hstep
        trivial
      · cases hstep
        exact h

theorem Gap.step_append {gap : Gap} (h : gap.Proper) {stop : Char} (hstop : isNewline stop = true)
    {c : Char} (hc : isNewline c = false) (cs rest : List Char) :
    gap.step c (cs ++ stop :: rest) = gap.step c cs := by
  have hrun {mark : Char} (hmark : isNewline mark = false) (cs : List Char) :
      runLength mark (cs ++ stop :: rest) = runLength mark cs := by
    have hne : (stop == mark) = false := by
      rw [beq_eq_false_iff_ne]
      rintro rfl
      simp [hstop] at hmark
    rw [runLength, takeWhile_append_stop (p := (· == mark)) hne, runLength]
  cases gap with
  | code =>
    have hhead : (cs ++ stop :: rest).head? = some c ↔ cs.head? = some c := by
      cases cs with
      | nil =>
        have hne : stop ≠ c := by
          rintro rfl
          simp [hstop] at hc
        simp [hne]
      | cons d ds => rfl
    simp only [Gap.step, hhead, ← List.cons_append, hrun hc]
  | comment => rfl
  | block mark length fresh => simp only [Gap.step, ← List.cons_append, hrun h]

theorem skipFrom_rest_eq_nil (gap : Gap) (cs : List Char) (pos : Pos) (lead : Bool) :
    (skipFrom gap cs pos lead).rest = [] ↔ (gap.past cs).isSome := by
  fun_induction skipFrom gap cs pos lead with
  | case1 => simp [Gap.past]
  | case2 gap pos lead cs ih => rw [ih, Gap.past]
  | case3 gap pos lead c cs hcrlf hc ih => rw [ih, Gap.past.eq_3 _ _ _ hcrlf, if_pos hc]
  | case4 gap pos lead c cs hcrlf hc next hstep ih =>
    rw [ih, Gap.past.eq_3 _ _ _ hcrlf, if_neg hc, hstep]
  | case5 gap pos lead c cs hcrlf hc hstep =>
    rw [Gap.past.eq_3 _ _ _ hcrlf, if_neg hc, hstep]
    simp

/-- Skipping a gap in a text that goes on in a new line: the token that starts in the text is found,
or else the gap goes on in the new line. -/
theorem skipFrom_append (gap : Gap) (cs : List Char) (pos : Pos) (lead : Bool) (hgap : gap.Proper)
    (hlast : cs.getLast? ≠ some '\r') (more : List Char) :
    skipFrom gap (cs ++ '\n' :: more) pos lead =
      match gap.past cs with
      | none =>
        let c := skipFrom gap cs pos lead
        { c with rest := c.rest ++ '\n' :: more }
      | some last =>
        skipFrom last.nextLine more ⟨(skipFrom gap cs pos lead).pos.line + 1, 1⟩ true := by
  -- a line break of two characters is not cut in two
  have hwhole {c : Char} {cs : List Char} (hlast : (c :: cs).getLast? ≠ some '\r')
      (hcrlf : ∀ ds, c = '\r' → cs = '\n' :: ds → False) (ds : List Char) (hc : c = '\r')
      (hcs : cs ++ '\n' :: more = '\n' :: ds) : False := by
    cases cs with
    | nil => exact hlast (by simp [hc])
    | cons d cs => exact hcrlf cs hc (by rw [(List.cons.inj hcs).1])
  have hrest {c : Char} {cs : List Char} (hlast : (c :: cs).getLast? ≠ some '\r') :
      cs.getLast? ≠ some '\r' := by
    cases cs with
    | nil => simp
    | cons d cs => rwa [List.getLast?_cons_cons] at hlast
  fun_induction skipFrom gap cs pos lead with
  | case1 gap pos lead =>
    simp only [Gap.past, List.nil_append]
    rw [skipFrom.eq_3 _ _ _ _ _ (by simp), if_pos (by rfl)]
  | case2 gap pos lead cs ih =>
    rw [Gap.past, ← ih hgap.nextLine (hrest (hrest hlast))]
    rfl
  | case3 gap pos lead c cs hcrlf hc ih =>
    rw [Gap.past.eq_3 _ _ _ hcrlf, if_pos hc, ← ih hgap.nextLine (hrest hlast), List.cons_append,
      skipFrom.eq_3 _ _ _ _ _ (hwhole hlast hcrlf), if_pos hc]
  | case4 gap pos lead c cs hcrlf hc next hstep ih =>
    rw [Gap.past.eq_3 _ _ _ hcrlf, if_neg hc, hstep]
    dsimp only
    rw [← ih (hgap.step hstep) (hrest hlast), List.cons_append,
      skipFrom.eq_3 _ _ _ _ _ (hwhole hlast hcrlf), if_neg hc,
      Gap.step_append hgap (by rfl) (by simpa using hc), hstep]
  | case5 gap pos lead c cs hcrlf hc hstep =>
    rw [Gap.past.eq_3 _ _ _ hcrlf, if_neg hc, hstep, List.cons_append,
      skipFrom.eq_3 _ _ _ _ _ (hwhole hlast hcrlf), if_neg hc,
      Gap.step_append hgap (by rfl) (by simpa using hc), hstep]
    rfl

/-! ### Lines -/

theorem lineBreaks_cons {c : Char} (hc : isNewline c = false) (cs : List Char) :
    lineBreaks (c :: cs) = lineBreaks cs := by
  have hreturn : ∀ ds, c = '\r' → cs = '\n' :: ds → False := by
    rintro ds rfl
    cases hc
  rw [lineBreaks.eq_3 _ _ hreturn, hc]
  rfl

theorem lineBreaks_append {xs : List Char} (h : ∀ c ∈ xs, isNewline c = false) (ys : List Char) :
    lineBreaks (xs ++ ys) = lineBreaks ys := by
  induction xs with
  | nil => rfl
  | cons c xs ih =>
    rw [List.cons_append, lineBreaks_cons (h c (List.mem_cons_self ..)),
      ih fun d hd => h d (List.mem_cons_of_mem _ hd)]

theorem skipFrom_line (gap : Gap) (cs : List Char) (pos : Pos) (lead : Bool) :
    (skipFrom gap cs pos lead).pos.line + lineBreaks (skipFrom gap cs pos lead).rest =
      pos.line + lineBreaks cs := by
  fun_induction skipFrom gap cs pos lead with
  | case1 => rfl
  | case2 gap pos lead cs ih =>
    rw [ih, lineBreaks]
    dsimp only
    omega
  | case3 gap pos lead c cs hcrlf hc ih =>
    rw [ih, lineBreaks.eq_3 _ _ hcrlf, if_pos hc]
    dsimp only
    omega
  | case4 gap pos lead c cs hcrlf hc next hstep ih =>
    rw [ih, lineBreaks_cons (by simpa using hc)]
  | case5 => rfl

theorem le_skipFrom_line (gap : Gap) (cs : List Char) (pos : Pos) (lead : Bool) :
    pos.line ≤ (skipFrom gap cs pos lead).pos.line := by
  fun_induction skipFrom gap cs pos lead with
  | case1 => exact Nat.le_refl _
  | case2 gap pos lead cs ih => exact Nat.le_of_succ_le ih
  | case3 gap pos lead c cs hcrlf hc ih => exact Nat.le_of_succ_le ih
  | case4 gap pos lead c cs hcrlf hc next hstep ih => exact ih
  | case5 => exact Nat.le_refl _

theorem skipFrom_lead (gap : Gap) (cs : List Char) (pos : Pos) {lead : Bool} (hlead : lead = true) :
    (skipFrom gap cs pos lead).lead = true := by
  fun_induction skipFrom gap cs pos lead with
  | case1 => exact hlead
  | case2 => rename_i ih; exact ih rfl
  | case3 => rename_i ih; exact ih rfl
  | case4 => rename_i ih; exact ih hlead
  | case5 => exact hlead

theorem skipFrom_suffix (gap : Gap) (cs : List Char) (pos : Pos) (lead : Bool) :
    (skipFrom gap cs pos lead).rest <:+ cs := by
  fun_induction skipFrom gap cs pos lead with
  | case1 => exact List.suffix_refl _
  | case2 => rename_i ih; exact ih.trans ⟨['\r', '\n'], rfl⟩
  | case3 => rename_i ih; exact ih.trans (List.suffix_cons ..)
  | case4 => rename_i ih; exact ih.trans (List.suffix_cons ..)
  | case5 => exact List.suffix_refl _

/-- Reading a token at the end of a gap. -/
def scanAt (start : Cursor) : Except Error (Option Lexeme) × Cursor :=
  match start.rest with
  | [] => (.ok none, start)
  | ch :: cs =>
    let reading := readToken ch cs
    let stop := start.advance reading.used
    match reading.result with
    | .ok token =>
      (.ok (some ⟨token, start.pos, stop.pos.col, start.lead⟩), { stop with lead := false })
    | .error detail =>
      (.error { code := .lexical, detail := detail, pos := some start.pos }, stop)

theorem scan_eq (c : Cursor) : c.scan = c.skipGap.scanAt := rfl

theorem scanAt_of_ok {start : Cursor} {ch : Char} {cs : List Char} {token : Token}
    (hrest : start.rest = ch :: cs) (hread : (readToken ch cs).result = .ok token) :
    start.scanAt = (.ok (some ⟨token, start.pos, start.pos.col + (readToken ch cs).used, start.lead⟩),
      { start.advance (readToken ch cs).used with lead := false }) := by
  rw [scanAt, hrest]
  dsimp only
  rw [hread]
  rfl

theorem scanAt_of_error {start : Cursor} {ch : Char} {cs : List Char} {detail : String}
    (hrest : start.rest = ch :: cs) (hread : (readToken ch cs).result = .error detail) :
    ∃ e c, start.scanAt = (.error e, c) ∧ e.code = .lexical := by
  rw [scanAt, hrest]
  dsimp only
  rw [hread]
  exact ⟨_, _, rfl, rfl⟩

theorem scan_of_end {c c' : Cursor} (h : c.scan = (.ok none, c')) :
    c' = c.skipGap ∧ c'.rest = [] ∧ c'.scan = (.ok none, c') := by
  rw [scan_eq, scanAt] at h
  split at h
  · rename_i hrest
    obtain ⟨-, rfl⟩ := Prod.mk.inj h
    refine ⟨rfl, hrest, ?_⟩
    have hskip : c.skipGap.skipGap = c.skipGap := by
      generalize c.skipGap = d at hrest
      obtain ⟨rest, pos, lead⟩ := d
      subst hrest
      rfl
    rw [scan_eq, hskip, scanAt, hrest]
  · rename_i ch cs hrest
    dsimp only at h
    split at h <;> cases h

theorem scan_of_token {c c' : Cursor} {lexeme : Lexeme} (h : c.scan = (.ok (some lexeme), c')) :
    ∃ ch cs, c.skipGap.rest = ch :: cs ∧ (readToken ch cs).result = .ok lexeme.token ∧
      lexeme.pos = c.skipGap.pos ∧ lexeme.lead = c.skipGap.lead ∧
      c' = { c.skipGap.advance (readToken ch cs).used with lead := false } := by
  rw [scan_eq, scanAt] at h
  split at h
  · cases h
  · rename_i ch cs hrest
    dsimp only at h
    split at h
    · rename_i token hok
      obtain ⟨hlexeme, rfl⟩ := Prod.mk.inj h
      obtain rfl := Option.some.inj (Except.ok.inj hlexeme)
      exact ⟨ch, cs, hrest, hok, rfl, rfl, rfl⟩
    · cases h

/-! ### Tokens of different lines -/

theorem skipFrom_line_lt (gap : Gap) (cs : List Char) (pos : Pos) {lead : Bool} (hlead : lead = false)
    (h : (skipFrom gap cs pos lead).lead = true) : pos.line < (skipFrom gap cs pos lead).pos.line := by
  fun_induction skipFrom gap cs pos lead with
  | case1 =>
    rw [hlead] at h
    cases h
  | case2 => exact le_skipFrom_line _ _ ⟨_ + 1, 1⟩ true
  | case3 => exact le_skipFrom_line _ _ ⟨_ + 1, 1⟩ true
  | case4 =>
    rename_i ih
    exact ih hlead h
  | case5 =>
    rw [hlead] at h
    cases h

theorem touches_eq_false_of_lead {c c' c'' : Cursor} {lexeme after : Lexeme}
    (h : c.scan = (.ok (some lexeme), c')) (h' : c'.scan = (.ok (some after), c''))
    (hlead : after.lead = true) : lexeme.touches after = false := by
  obtain ⟨ch, cs, -, -, hpos, -, rfl⟩ := scan_of_token h
  obtain ⟨-, -, -, -, hpos', hlead', -⟩ := scan_of_token h'
  rw [hlead'] at hlead
  have hline := skipFrom_line_lt _ _ _ rfl hlead
  have hne : lexeme.pos.line ≠ after.pos.line := by
    rw [hpos, hpos']
    exact Nat.ne_of_lt hline
  simp [Lexeme.touches, hne]

end Cursor

end LineBasic
