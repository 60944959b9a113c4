import LineBasic.Expr.Printer
import LineBasic.Proofs.Complaints
import LineBasic.Proofs.LongerText

/-!
# The tokens of a printed expression

A printed expression reads as the tokens of which it is made, whatever follows it, as long as that
starts with a blank or a symbol. The tokens keep apart: operators between two operands stand between
blanks, and a sign is never followed by another one.
-/

namespace LineBasic

set_option autoImplicit false

/-! ### Tokens up to the end of a source -/

/-- The tokens that a cursor yields up to the end of its source, none of them first in its line. -/
def Cursor.Yields : List Token → Cursor → Prop
  | [], c => c.scan.1 = .ok none
  | token :: tokens, c => ∃ pos past c', c.scan = (.ok (some ⟨token, pos, past, false⟩), c') ∧
      c'.Yields tokens

/-- A text that reads as these tokens, wherever it stands in a line behind another token. -/
def Spells (cs : List Char) (tokens : List Token) : Prop :=
  ∀ pos, Cursor.Yields tokens ⟨cs, pos, false⟩

/-- A text that does not extend a name or a number in front of it. -/
def Ends (cs : List Char) : Prop :=
  ∀ c ∈ cs.head?, isSeparator c = true

theorem Ends.cons {c : Char} (hc : isSeparator c = true) (cs : List Char) : Ends (c :: cs) :=
  fun _ hd => Option.some.inj hd ▸ hc

/-- A character that may be the first half of a longer symbol or of a comment. -/
def opensPair (c : Char) : Bool :=
  c == '-' || c == '=' || c == '<' || c == '>'

theorem takeWhile_append_of_stop {p : Char → Bool} {cs more : List Char} (hcs : ∀ c ∈ cs, p c = true)
    (hmore : ∀ c ∈ more.head?, p c = false) : (cs ++ more).takeWhile p = cs := by
  rw [List.takeWhile_append_of_pos hcs]
  cases more with
  | nil => simp
  | cons c more => rw [List.takeWhile_cons_of_neg (by simp [hmore c rfl]), List.append_nil]

theorem isNameChar_of_isSeparator {c : Char} (h : isSeparator c = true) : isNameChar c = false := by
  simp [isNameChar, h]

/-- Symbols start neither blanks, comments, strings nor numbers. -/
theorem Token.plain_of_ofChar? {c : Char} {token : Token} (h : Token.ofChar? c = some token) :
    Text.isBlank c = false ∧ c ≠ '#' ∧ c ≠ '"' ∧ c ≠ '\'' ∧ c.isDigit = false ∧ c ≠ '.' := by
  unfold Token.ofChar? at h
  split at h <;> first | decide | cases h

theorem isDigit_of_isSeparator {c : Char} (h : isSeparator c = true) : c.isDigit = false := by
  rcases Bool.or_eq_true_iff.mp h with hblank | hsymbol
  · rw [Bool.eq_false_iff]
    intro hdigit
    have hbounds : 48 ≤ c.toNat ∧ c.toNat ≤ 57 := Char.isDigit_iff_toNat.mp hdigit
    simp [Text.isBlank, Text.inRanges, Text.blankRanges] at hblank
    omega
  · obtain ⟨token, htoken⟩ := Option.isSome_iff_exists.mp hsymbol
    exact (Token.plain_of_ofChar? htoken).2.2.2.2.1

theorem isSeparator_of_isDigit {c : Char} (h : c.isDigit = true) : isSeparator c = false := by
  rw [Bool.eq_false_iff]
  exact fun hsep => absurd h (by simp [isDigit_of_isSeparator hsep])

theorem opensPair_eq_false {c : Char} (h : isSeparator c = false) : opensPair c = false := by
  rw [Bool.eq_false_iff]
  intro hopens
  simp only [opensPair, Bool.or_eq_true, beq_iff_eq] at hopens
  rcases hopens with ((rfl | rfl) | rfl) | rfl <;> cases h

theorem startsNumber_append {c : Char} {cs more : List Char} (h : startsNumber (c :: cs) = false)
    (hends : Ends more) : startsNumber (c :: (cs ++ more)) = false := by
  cases cs with
  | cons d cs => exact h
  | nil =>
    cases more with
    | nil => exact h
    | cons d more =>
      have hd := isDigit_of_isSeparator (hends d rfl)
      simp only [startsNumber, List.head?_nil, Option.map_none, Option.getD_none, Bool.and_false,
        Bool.or_false] at h
      simp [startsNumber, h, hd]

/-- Digits with an optional fraction that read as a number. -/
inductive Number.Written (x : Float) : List Char → Prop where
  | whole {whole : List Char} (hne : whole ≠ []) (hwhole : ∀ c ∈ whole, c.isDigit = true)
      (hvalue : Number.ofDecimal whole [] 0 = x) : Written x whole
  | fraction {whole fraction : List Char} (hne : whole ≠ []) (hwhole : ∀ c ∈ whole, c.isDigit = true)
      (hfraction : ∀ c ∈ fraction, c.isDigit = true)
      (hvalue : Number.ofDecimal whole fraction 0 = x) : Written x (whole ++ '.' :: fraction)

theorem Number.Written.head {x : Float} {digits : List Char} (h : Number.Written x digits) :
    ∃ c cs, digits = c :: cs ∧ c.isDigit = true := by
  cases h with
  | whole hne hwhole =>
    obtain ⟨c, cs, rfl⟩ := List.exists_cons_of_ne_nil hne
    exact ⟨c, cs, rfl, hwhole c List.mem_cons_self⟩
  | fraction hne hwhole =>
    obtain ⟨c, cs, rfl⟩ := List.exists_cons_of_ne_nil hne
    exact ⟨c, _, rfl, hwhole c List.mem_cons_self⟩

theorem Number.Written.chars {x : Float} {digits : List Char} (h : Number.Written x digits) :
    ∀ c ∈ digits, c.isDigit = true ∨ c = '.' := by
  intro c hc
  cases h with
  | whole hne hwhole => exact .inl (hwhole c hc)
  | fraction hne hwhole hfraction =>
    rcases List.mem_append.mp hc with hc | hc
    · exact .inl (hwhole c hc)
    · rcases List.mem_cons.mp hc with rfl | hc
      · exact .inr rfl
      · exact .inl (hfraction c hc)

theorem Cursor.readDecimal_written {x : Float} {digits more : List Char}
    (h : Number.Written x digits) (hends : Ends more) :
    readDecimal (digits ++ more) = ⟨.ok (.number x), digits.length⟩ := by
  have hstop : ∀ c ∈ more.head?, c.isDigit = false := fun c hc => isDigit_of_isSeparator (hends c hc)
  rw [readDecimal_eq]
  cases h with
  | whole hne hwhole hvalue =>
    have hmore : more.head? ≠ some '.' := fun hpoint => absurd (hends _ hpoint) (by decide)
    rw [takeWhile_append_of_stop hwhole hstop]
    simp [hmore, hvalue]
  | @fraction whole fraction hne hwhole hfraction hvalue =>
    have hpoint : (whole ++ ('.' :: (fraction ++ more))).takeWhile Char.isDigit = whole :=
      takeWhile_append_of_stop hwhole fun c hc => by
        obtain rfl := Option.some.inj hc
        rfl
    rw [List.append_assoc, List.cons_append, hpoint]
    simp [takeWhile_append_of_stop hfraction hstop, hvalue]
    omega

theorem Number.Written.eq_zero {x : Float} (h : Number.Written x ['0']) : x = 0 := by
  generalize hdigits : ['0'] = digits at h
  cases h with
  | whole hne hwhole hvalue =>
    subst hdigits
    exact hvalue.symm
  | @fraction whole fraction hne hwhole hfraction hvalue =>
    obtain ⟨c, cs, rfl⟩ := List.exists_cons_of_ne_nil hne
    simp at hdigits

theorem Cursor.readNumber_written {x : Float} {c : Char} {cs more : List Char}
    (h : Number.Written x (c :: cs)) (hends : Ends more) :
    readNumber c (cs ++ more) = ⟨.ok (.number x), cs.length + 1⟩ := by
  have hdecimal := readDecimal_written h hends
  rw [readNumber_eq]
  split
  · rename_i hc
    subst hc
    cases cs with
    | cons d cs =>
      have hd : ¬(d = 'x' ∨ d = 'X') ∧ (d = '.' ∨ d.isDigit = true) := by
        rcases h.chars d (by simp) with hd | rfl
        · refine ⟨?_, .inr hd⟩
          rintro (rfl | rfl) <;> cases hd
        · decide
      rw [List.cons_append]
      dsimp only
      rw [if_neg hd.1, if_pos hd.2]
      exact hdecimal
    | nil =>
      obtain rfl := h.eq_zero
      cases more with
      | nil => rfl
      | cons d more =>
        have hsep := hends d rfl
        have hd : ¬(d = 'x' ∨ d = 'X') ∧ ¬(d = '.' ∨ d.isDigit = true) := by
          refine ⟨?_, ?_⟩
          · rintro (rfl | rfl) <;> cases hsep
          · rintro (rfl | hdigit)
            · cases hsep
            · simp [isDigit_of_isSeparator hsep] at hdigit
        rw [List.nil_append]
        dsimp only
        rw [if_neg hd.1, if_neg hd.2, if_pos hsep]
        rfl
  · exact hdecimal

theorem Cursor.Yields.of_scan {tokens : List Token} {c c' : Cursor} (h : c.scan = c'.scan)
    (hyields : c'.Yields tokens) : c.Yields tokens := by
  cases tokens with
  | nil =>
    unfold Yields at hyields ⊢
    rwa [h]
  | cons token tokens =>
    obtain ⟨pos, past, after, hscan, hrest⟩ := hyields
    exact ⟨pos, past, after, h.trans hscan, hrest⟩

theorem Cursor.skipGap_cons {ch : Char} (hch : isNewline ch = false) (cs : List Char) (pos : Pos)
    (lead : Bool) :
    (⟨ch :: cs, pos, lead⟩ : Cursor).skipGap = match Gap.step ch cs .code with
      | some gap => skipFrom gap cs ⟨pos.line, pos.col + 1⟩ lead
      | none => ⟨ch :: cs, pos, lead⟩ := by
  have hcrlf : ∀ ds, ch = '\r' → cs = '\n' :: ds → False := by
    rintro ds rfl
    cases hch
  rewrite [skipGap, skipFrom.eq_3 _ _ _ _ _ hcrlf, if_neg (by simp [hch])]
  rfl

theorem Cursor.step_code_of {c : Char} {cs : List Char} (hblank : Text.isBlank c = false)
    (hhash : c ≠ '#') (hpair : opensPair c = true → ∀ d ∈ cs.head?, opensPair d = false) :
    Gap.step c cs .code = none := by
  have hcomment : ¬((c = '-' ∨ c = '=') ∧ cs.head? = some c) := by
    rintro ⟨hc, hhead⟩
    have hopens : opensPair c = true := by rcases hc with rfl | rfl <;> rfl
    exact absurd hopens (by simp [hpair hopens c hhead])
  rw [Gap.step, if_neg (by simp [hblank]), if_neg hhash, if_neg hcomment]

theorem Cursor.scan_cons {ch : Char} {cs more : List Char} {token : Token}
    (hstep : Gap.step ch (cs ++ more) .code = none)
    (hread : readToken ch (cs ++ more) = ⟨.ok token, cs.length + 1⟩) (pos : Pos) (lead : Bool) :
    (⟨ch :: cs ++ more, pos, lead⟩ : Cursor).scan =
      (.ok (some ⟨token, pos, pos.col + (cs.length + 1), lead⟩),
        ⟨more, ⟨pos.line, pos.col + (cs.length + 1)⟩, false⟩) := by
  have hch := isNewline_of_not_isBlank (step_code_eq_none hstep).1
  have hskip := skipGap_cons hch (cs ++ more) pos lead
  rw [hstep] at hskip
  have hscan : (⟨ch :: (cs ++ more), pos, lead⟩ : Cursor).scan = _ :=
    (congrArg scanAt hskip).trans (scanAt_of_ok rfl (congrArg Reading.result hread))
  rw [List.cons_append, hscan, hread]
  have hrest : (ch :: (cs ++ more)).drop (cs.length + 1) = more := by simp
  simp only [advance, hrest]

/-- A text that reads as a name, in whatever case it is written. -/
structure NameText (cs : List Char) (name : String) : Prop where
  nonempty : cs ≠ []
  chars : ∀ c ∈ cs, isNameChar c
  start : startsNumber cs = false
  folded : String.ofList (Text.foldChars cs) = name
  ident : Token.ofWord name = .ident name

theorem ProperName.nameText {name : String} (h : ProperName name) : NameText name.toList name :=
  ⟨h.nonempty, h.chars, h.start, by rw [Text.foldChars_of_fixed h.fixed, String.ofList_toList], h.ident⟩

theorem NameText.properName {cs : List Char} {name : String} (h : NameText cs name) :
    ProperName name := by
  obtain ⟨hne, hchars, hstart, rfl, hident⟩ := h
  exact Cursor.properName_of_ofWord hne hchars hstart hident

theorem Cursor.readToken_word {cs more : List Char} {token : Token} (hne : cs ≠ [])
    (hchars : ∀ c ∈ cs, isNameChar c) (hstart : startsNumber cs = false)
    (htoken : Token.ofWord (String.ofList (Text.foldChars cs)) = token) (hends : Ends more) :
    ∃ c ds, cs = c :: ds ∧ Gap.step c (ds ++ more) .code = none ∧
      readToken c (ds ++ more) = ⟨.ok token, ds.length + 1⟩ := by
  have hread : readWord (cs ++ more) = ⟨.ok token, cs.length⟩ := by
    have hword := takeWhile_append_of_stop hchars fun c hc => isNameChar_of_isSeparator (hends c hc)
    rw [readWord, hword, htoken]
  obtain ⟨c, ds, rfl⟩ := List.exists_cons_of_ne_nil hne
  obtain ⟨⟨⟨hseparator, hquote⟩, hquote'⟩, hhash⟩ : ((isSeparator c = false ∧ c ≠ '"') ∧ c ≠ '\'') ∧
      c ≠ '#' := by
    simpa [isNameChar] using hchars c List.mem_cons_self
  obtain ⟨hblank, hsymbol⟩ : Text.isBlank c = false ∧ Token.ofChar? c = none := by
    simpa [isSeparator] using hseparator
  have hdigits := startsNumber_append hstart hends
  rw [startsNumber] at hdigits
  refine ⟨c, ds, rfl, step_code_of hblank hhash (by simp [opensPair_eq_false hseparator]), ?_⟩
  rw [readToken, if_neg (by simp [hquote, hquote']), if_neg (Bool.eq_false_iff.mp hdigits), hsymbol]
  exact hread

theorem NameText.scan {cs more : List Char} {name : String} (h : NameText cs name)
    (hends : Ends more) (pos : Pos) (lead : Bool) :
    (⟨cs ++ more, pos, lead⟩ : Cursor).scan =
      (.ok (some ⟨.ident name, pos, pos.col + cs.length, lead⟩),
        ⟨more, ⟨pos.line, pos.col + cs.length⟩, false⟩) := by
  obtain ⟨hne, hchars, hstart, rfl, hident⟩ := h
  obtain ⟨c, ds, rfl, hstep, hread⟩ := Cursor.readToken_word hne hchars hstart hident hends
  exact Cursor.scan_cons hstep hread pos lead

namespace Spells

variable {more : List Char} {tokens : List Token}

theorem nil : Spells [] [] :=
  fun _ => rfl

theorem blank (h : Spells more tokens) : Spells (' ' :: more) tokens := by
  intro pos
  have hskip : (⟨' ' :: more, pos, false⟩ : Cursor).skipGap =
      (⟨more, ⟨pos.line, pos.col + 1⟩, false⟩ : Cursor).skipGap :=
    Cursor.skipGap_cons rfl more pos false
  refine .of_scan ?_ (h ⟨pos.line, pos.col + 1⟩)
  rw [Cursor.scan_eq, hskip, ← Cursor.scan_eq]

theorem cons {ch : Char} {cs : List Char} {token : Token}
    (hstep : Cursor.Gap.step ch (cs ++ more) .code = none)
    (hread : Cursor.readToken ch (cs ++ more) = ⟨.ok token, cs.length + 1⟩)
    (h : Spells more tokens) : Spells (ch :: cs ++ more) (token :: tokens) :=
  fun pos => ⟨_, _, _, Cursor.scan_cons hstep hread pos false, h _⟩

/-- A symbol of one character, which must not be the first half of something longer. -/
theorem symbol (ch : Char) {token : Token} (hsymbol : Token.ofChar? ch = some token)
    (hapart : opensPair ch = true → ∀ c ∈ more.head?, opensPair c = false)
    (h : Spells more tokens) : Spells (ch :: more) (token :: tokens) := by
  obtain ⟨hblank, hhash, hquote, hquote', hdigit, hpoint⟩ := Token.plain_of_ofChar? hsymbol
  have hnext {c d : Char} (hc : opensPair c = true) (hd : opensPair d = true) :
      ¬(ch = c ∧ more.head? = some d) := by
    rintro ⟨rfl, hhead⟩
    exact absurd hd (by simp [hapart hc d hhead])
  have hread : Cursor.readToken ch more = ⟨.ok token, 1⟩ := by
    rw [Cursor.readToken, if_neg (by simp [hquote, hquote']), if_neg (by simp [hdigit, hpoint]), hsymbol]
    dsimp only
    rw [Cursor.readSymbol_eq, if_neg (hnext rfl rfl), if_neg (hnext rfl rfl), if_neg (hnext rfl rfl)]
  exact @cons more tokens ch [] token (Cursor.step_code_of hblank hhash hapart) hread h

theorem name {cs : List Char} {name : String} (hname : NameText cs name) (hends : Ends more)
    (h : Spells more tokens) : Spells (cs ++ more) (.ident name :: tokens) :=
  fun pos => ⟨_, _, _, hname.scan hends pos false, h _⟩

theorem keyword (name : String) {token : Token}
    (hname : name.toList ≠ [] ∧ name.toList.all isNameChar = true ∧
      name.toList.all (fun c => Text.lowerCase c == [c]) = true ∧
      startsNumber name.toList = false ∧ Token.ofWord name = token)
    (hends : Ends more) (h : Spells more tokens) : Spells (name.toList ++ more) (token :: tokens) := by
  obtain ⟨hne, hchars, hfixed, hstart, htoken⟩ := hname
  have hfolded : String.ofList (Text.foldChars name.toList) = name := by
    rw [Text.foldChars_of_fixed (by simpa using hfixed), String.ofList_toList]
  obtain ⟨c, cs, hcs, hstep, hread⟩ := Cursor.readToken_word hne (List.all_eq_true.mp hchars) hstart
    (hfolded.symm ▸ htoken) hends
  rw [hcs]
  exact cons hstep hread h

theorem text {s : String} (hs : ∀ c ∈ s.toList, isNewline c = false ∧ c ≠ '"')
    (h : Spells more tokens) : Spells ('"' :: (s.toList ++ '"' :: more)) (.text s :: tokens) := by
  have hbody : (s.toList ++ '"' :: more).takeWhile (fun c => c != '"' && !isNewline c) = s.toList :=
    takeWhile_append_of_stop (fun c hc => by simp [hs c hc]) fun c hc => by
      obtain rfl := Option.some.inj hc
      rfl
  have hread : Cursor.readToken '"' (s.toList ++ '"' :: more) = ⟨.ok (.text s), s.toList.length + 2⟩ := by
    rw [Cursor.readToken, if_pos (.inl rfl), Cursor.readString, hbody]
    simp
  have hspells := @cons more tokens '"' (s.toList ++ ['"']) (.text s)
    (Cursor.step_code_of rfl (by decide) (by simp [opensPair])) (by simpa using hread) h
  simpa using hspells

theorem number {x : Float} {digits : List Char} (hdigits : Number.Written x digits)
    (hends : Ends more) (h : Spells more tokens) : Spells (digits ++ more) (.number x :: tokens) := by
  obtain ⟨c, cs, rfl, hc⟩ := hdigits.head
  have hother {d : Char} (hd : d.isDigit = false) : c ≠ d := by
    rintro rfl
    simp [hd] at hc
  have hseparator := isSeparator_of_isDigit hc
  have hblank : Text.isBlank c = false := (Bool.or_eq_false_iff.mp hseparator).1
  refine cons (Cursor.step_code_of hblank (hother rfl) (by simp [opensPair_eq_false hseparator])) ?_ h
  rw [Cursor.readToken, if_neg (by simp [hother (d := '"') rfl, hother (d := '\'') rfl]),
    if_pos (by simp [hc])]
  exact Cursor.readNumber_written hdigits hends

end Spells

/-! ### Printed expressions -/

/-- The token in front of an operand. -/
def UnaryOp.operator : UnaryOp → Operator
  | negate => .minus
  | not => .not
  | floor => .percent
  | round => .tilde
  | ceiling => .bang

/-- The token between two operands that printing chooses. -/
def BinaryOp.operator : BinaryOp → Operator
  | power => .caret
  | multiply => .multiply
  | divide => .divide
  | divideInt => .divideInt
  | modulus => .mod
  | add => .plus
  | subtract => .minus
  | equal => .equal
  | notEqual => .notEqual
  | less => .less
  | lessEqual => .lessEqual
  | greater => .greater
  | greaterEqual => .greaterEqual
  | and => .and
  | or => .or

namespace Expr

def isUnary : Expr → Bool
  | unary .. => true
  | _ => false

mutual

/-- The tokens of a printed expression. -/
def tokens : Expr → List Token
  | number _ x => [.number x]
  | text _ s => [.text s]
  | bool _ b => [.word (if b then .true else .false)]
  | mark _ _ => []
  | var _ name => [.ident name]
  | select _ name first more =>
    .ident name :: .leftParen :: (tokensList first ++ (tokensLevels more ++ [.rightParen]))
  | unary _ op e => .operator op.operator :: tokens e
  | binary _ op l r =>
    .leftParen :: (tokens l ++ .operator op.operator :: (tokens r ++ [.rightParen]))
  | list _ items => tokensList items

/-- The tokens of expressions with commas between them. -/
def tokensList : List Expr → List Token
  | [] => []
  | e :: es => tokens e ++ tokensTail es

/-- The tokens of expressions with a comma in front of each. -/
def tokensTail : List Expr → List Token
  | [] => []
  | e :: es => .comma :: (tokens e ++ tokensTail es)

/-- The tokens of levels with a colon in front of each. -/
def tokensLevels : List (List Expr) → List Token
  | [] => []
  | level :: more => .colon :: (tokensList level ++ tokensLevels more)

end

/-- An expression whose printed form can be read: its numbers are written in digits, its strings
have no quotes, and no sign stands in front of another one or beside a power. -/
inductive Legible : Expr → Prop where
  | number (pos : Pos) {x : Float} (h : Number.Written x (Number.text x).toList) :
      Legible (.number pos x)
  | text (pos : Pos) {s : String} (h : ∀ c ∈ s.toList, isNewline c = false ∧ c ≠ '"') :
      Legible (.text pos s)
  | bool (pos : Pos) (b : Bool) : Legible (.bool pos b)
  | var (pos : Pos) {name : String} (h : ProperName name) : Legible (.var pos name)
  | call (pos : Pos) {name : String} (h : ProperName name) : Legible (.select pos name [] [])
  | select (pos : Pos) {name : String} {first : List Expr} {more : List (List Expr)}
      (h : ProperName name) (hlevels : ∀ level ∈ first :: more, level ≠ [])
      (hlegible : ∀ level ∈ first :: more, ∀ e ∈ level, Legible e) :
      Legible (.select pos name first more)
  | unary (pos : Pos) (op : UnaryOp) {e : Expr} (he : e.isUnary = false) (h : Legible e) :
      Legible (.unary pos op e)
  | binary (pos : Pos) (op : BinaryOp) {l r : Expr}
      (hpower : op = .power → l.isUnary = false ∧ r.isUnary = false) (hl : Legible l)
      (hr : Legible r) : Legible (.binary pos op l r)

/-- The text of an expression reads as its tokens. -/
def Spelled (e : Expr) : Prop :=
  ∀ more ts, Ends more → Spells more ts → Spells (e.display.toList ++ more) (e.tokens ++ ts)

theorem spells_tail {es : List Expr} (h : ∀ e ∈ es, e.Spelled) {more : List Char}
    {ts : List Token} (hends : Ends more) (hmore : Spells more ts) :
    Ends ((displayTail es).toList ++ more) ∧
      Spells ((displayTail es).toList ++ more) (tokensTail es ++ ts) := by
  induction es with
  | nil => exact ⟨hends, hmore⟩
  | cons e es ih =>
    obtain ⟨he, hes⟩ := List.forall_mem_cons.mp h
    obtain ⟨hends', hspells⟩ := ih hes
    have hcomma := Spells.symbol ',' rfl nofun (he _ _ hends' hspells).blank
    have htext : (displayTail (e :: es)).toList ++ more =
        ',' :: ' ' :: (e.display.toList ++ ((displayTail es).toList ++ more)) := by
      simp [displayTail]
    rw [htext, tokensTail, List.cons_append, List.append_assoc]
    exact ⟨.cons rfl _, hcomma⟩

theorem spells_list {es : List Expr} (h : ∀ e ∈ es, e.Spelled) {more : List Char}
    {ts : List Token} (hends : Ends more) (hmore : Spells more ts) :
    Spells ((displayList es).toList ++ more) (tokensList es ++ ts) := by
  cases es with
  | nil => exact hmore
  | cons e es =>
    obtain ⟨he, hes⟩ := List.forall_mem_cons.mp h
    obtain ⟨hends', hspells⟩ := spells_tail hes hends hmore
    rw [displayList, tokensList, String.toList_append, List.append_assoc, List.append_assoc]
    exact he _ _ hends' hspells

theorem spells_levels {levels : List (List Expr)} (h : ∀ level ∈ levels, ∀ e ∈ level, e.Spelled)
    {more : List Char} {ts : List Token} (hends : Ends more) (hmore : Spells more ts) :
    Ends ((displayLevels levels).toList ++ more) ∧
      Spells ((displayLevels levels).toList ++ more) (tokensLevels levels ++ ts) := by
  induction levels with
  | nil => exact ⟨hends, hmore⟩
  | cons level levels ih =>
    obtain ⟨hlevel, hlevels⟩ := List.forall_mem_cons.mp h
    obtain ⟨hends', hspells⟩ := ih hlevels
    have hcolon := (Spells.symbol ':' rfl nofun (spells_list hlevel hends' hspells).blank).blank
    have htext : (displayLevels (level :: levels)).toList ++ more = ' ' :: ':' :: ' ' ::
        ((displayList level).toList ++ ((displayLevels levels).toList ++ more)) := by
      simp [displayLevels]
    rw [htext, tokensLevels, List.cons_append, List.append_assoc]
    exact ⟨.cons rfl _, hcolon⟩

theorem spelled_select (pos : Pos) {name : String} (hname : ProperName name) {first : List Expr}
    {more : List (List Expr)} (h : ∀ level ∈ first :: more, ∀ e ∈ level, e.Spelled) :
    (select pos name first more).Spelled := by
  intro rest ts hends hrest
  obtain ⟨hfirst, hmore⟩ := List.forall_mem_cons.mp h
  have hclose : Spells (')' :: rest) (.rightParen :: ts) := Spells.symbol ')' rfl nofun hrest
  obtain ⟨hendsLevels, hlevels⟩ := spells_levels hmore (.cons rfl rest) hclose
  have hopen := Spells.symbol '(' rfl nofun (spells_list hfirst hendsLevels hlevels)
  have hspells := Spells.name hname.nameText (.cons rfl _) hopen
  simpa [display, tokens] using hspells

theorem spells_operator (op : BinaryOp) {more : List Char} {ts : List Token} (h : Spells more ts) :
    Spells (op.spelling.toList ++ ' ' :: more) (.operator op.operator :: ts) := by
  have hblank := h.blank
  have hends : Ends (' ' :: more) := .cons rfl more
  have hsymbol {ch : Char} {token : Token} (hch : Token.ofChar? ch = some token) :
      Spells (ch :: ' ' :: more) (token :: ts) :=
    Spells.symbol ch hch (fun _ c hc => Option.some.inj hc ▸ rfl) hblank
  cases op with
  | modulus => exact .keyword "mod" (by decide) hends hblank
  | and => exact .keyword "and" (by decide) hends hblank
  | or => exact .keyword "or" (by decide) hends hblank
  | notEqual => exact @Spells.cons _ ts '<' ['>'] (.operator .notEqual) rfl rfl hblank
  | lessEqual => exact @Spells.cons _ ts '<' ['='] (.operator .lessEqual) rfl rfl hblank
  | greaterEqual => exact @Spells.cons _ ts '>' ['='] (.operator .greaterEqual) rfl rfl hblank
  | _ => exact hsymbol rfl

theorem spells_sign (op : UnaryOp) {more : List Char} {ts : List Token} (h : Spells more ts)
    (hmore : ∀ c ∈ more.head?, opensPair c = false) :
    Spells (op.spelling.toList ++ more) (.operator op.operator :: ts) := by
  cases op with
  | not => exact .keyword "not" (by decide) (.cons rfl more) h.blank
  | negate => exact Spells.symbol '-' rfl (fun _ => hmore) h
  | _ => exact Spells.symbol _ rfl nofun h

/-- What is printed without a sign in front does not start with one. -/
theorem opensPair_display {e : Expr} (h : e.Legible) (he : e.isUnary = false) (more : List Char) :
    ∀ c ∈ (e.display.toList ++ more).head?, opensPair c = false := by
  have hstart {text rest : List Char} {d : Char} (htext : text.head? = some d)
      (hd : opensPair d = false) : ∀ c ∈ (text ++ rest).head?, opensPair c = false := by
    obtain ⟨ds, rfl⟩ := List.head?_eq_some_iff.mp htext
    exact fun c hc => Option.some.inj hc ▸ hd
  have hname {name : String} (h : ProperName name) :
      ∃ d, name.toList.head? = some d ∧ opensPair d = false := by
    obtain ⟨d, ds, hds⟩ := List.exists_cons_of_ne_nil h.nonempty
    have hchar := h.chars d (by simp [hds])
    simp only [isNameChar, Bool.and_eq_true, Bool.not_eq_true'] at hchar
    exact ⟨d, by rw [hds]; rfl, opensPair_eq_false hchar.1.1.1⟩
  cases h with
  | number pos h =>
    obtain ⟨d, ds, hds, hd⟩ := h.head
    exact hstart (by rw [display, hds]; rfl) (opensPair_eq_false (isSeparator_of_isDigit hd))
  | text pos h => exact hstart (d := '"') (by simp [display]) rfl
  | bool pos b =>
    cases b with
    | true => exact hstart (d := 't') (by simp [display]) rfl
    | false => exact hstart (d := 'f') (by simp [display]) rfl
  | var pos h =>
    obtain ⟨d, hhead, hd⟩ := hname h
    exact hstart hhead hd
  | call pos h =>
    obtain ⟨d, hhead, hd⟩ := hname h
    exact hstart (d := d) (by simp [display, hhead]) hd
  | select pos h =>
    obtain ⟨d, hhead, hd⟩ := hname h
    exact hstart (d := d) (by simp [display, hhead]) hd
  | unary => cases he
  | binary => exact hstart (d := '(') (by simp [display]) rfl

theorem Legible.spelled {e : Expr} (h : e.Legible) : e.Spelled := by
  induction h with
  | number pos h => exact fun more ts hends hmore => .number h hends hmore
  | @text pos s h =>
    intro more ts hends hmore
    simpa [display, tokens] using Spells.text h hmore
  | bool pos b =>
    intro more ts hends hmore
    cases b with
    | true => exact .keyword "true" (by decide) hends hmore
    | false => exact .keyword "false" (by decide) hends hmore
  | var pos h =>
    exact fun more ts hends hmore => .name h.nameText hends hmore
  | call pos h => exact spelled_select pos h (by simp)
  | select pos h hlevels hlegible ih => exact spelled_select pos h ih
  | unary pos op he h ih =>
    intro more ts hends hmore
    have hspells := spells_sign op (ih more ts hends hmore) (opensPair_display h he more)
    simpa [display, tokens] using hspells
  | binary pos op hpower hl hr ihl ihr =>
    intro more ts hends hmore
    have hclose : Spells (')' :: more) (.rightParen :: ts) := Spells.symbol ')' rfl nofun hmore
    have hright := (spells_operator op (ihr _ _ (.cons rfl more) hclose)).blank
    have hspells := Spells.symbol '(' rfl nofun (ihl _ _ (.cons rfl _) hright)
    simpa [display, tokens] using hspells

end Expr

end LineBasic
