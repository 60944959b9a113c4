import LineBasic.Proofs.TokenProgress
import LineBasic.Proofs.Unsigned

/-!
# Names in lower case

The lower case of a character is its own lower case. It can stand in a name if the character can,
and it looks like a part of a number only if the character does. So a name in lower case reads as
the same name again.
-/

namespace LineBasic

set_option autoImplicit false

theorem ofChar?_of_not_ascii {c : Char} (h : 0x80 ≤ c.toNat) : Token.ofChar? c = none := by
  unfold Token.ofChar?
  split
  all_goals first | rfl | exact absurd h (by decide)

theorem toNat_ofNat {n : Nat} (h : n.isValidChar) : (Char.ofNat n).toNat = n := by
  rw [Char.ofNat, dif_pos h]
  rfl

theorem isNameChar_of_not_ascii {c : Char} (h : 0x80 ≤ c.toNat) (hblank : Text.isBlank c = false) :
    isNameChar c = true := by
  have hne (d : Char) (hd : d.toNat < 0x80) : c ≠ d := by
    rintro rfl
    omega
  simp [isNameChar, isSeparator, hblank, ofChar?_of_not_ascii h, hne '"' (by decide),
    hne '\'' (by decide), hne '#' (by decide)]

namespace Text

/-- What a character of a name in lower case keeps of the character `c` that it comes from. -/
structure Lowers (c d : Char) : Prop where
  fixed : lowerCase d = [d]
  name : isNameChar c → isNameChar d
  digit : d.isDigit → c.isDigit
  point : d = '.' → c = '.'

theorem lowers_of_ascii {c d : Char} (hc : c.toNat < 0x80) (hd : d ∈ lowerCase c) : Lowers c d := by
  have htable : ∀ n < 0x80, (lowerCase (Char.ofNat n)).all fun d =>
      lowerCase d == [d] && (!isNameChar (Char.ofNat n) || isNameChar d) &&
        (!d.isDigit || (Char.ofNat n).isDigit) && (d != '.' || Char.ofNat n == '.') := by
    decide +kernel
  have hrow := htable c.toNat hc
  rw [Char.ofNat_toNat] at hrow
  have hchecked := List.all_eq_true.mp hrow d hd
  simp only [Bool.and_eq_true, Bool.or_eq_true, Bool.not_eq_true', beq_iff_eq, bne_iff_ne] at hchecked
  obtain ⟨⟨⟨hfixed, hname⟩, hdigit⟩, hpoint⟩ := hchecked
  refine ⟨hfixed, fun h => ?_, fun h => ?_, fun h => ?_⟩
  · exact hname.resolve_left (by simp [h])
  · exact hdigit.resolve_left (by simp [h])
  · exact hpoint.resolve_left (by simp [h])

namespace CaseRun

/-- The code points of a run in lower case. -/
def images (r : CaseRun) : List Nat :=
  (List.range ((r.last - r.first) / r.step + 1)).map fun k =>
    ((r.first + k * r.step : Nat) + r.shift : Int).toNat

/-- A bound below them. -/
def low (r : CaseRun) : Nat :=
  (r.first + r.shift : Int).toNat

/-- A bound above them. -/
def high (r : CaseRun) : Nat :=
  (r.last + r.shift : Int).toNat

/-- Whether no code point of a run in lower case lies in a range. -/
def avoids (r : CaseRun) (range : Nat × Nat) : Bool :=
  Nat.blt r.high range.1 || Nat.blt range.2 r.low

/-- Whether the code points of a run in lower case are those of letters of ASCII or of other
characters that are not blank. -/
def isLegible (r : CaseRun) : Bool :=
  Nat.ble 0x61 r.low && Nat.ble r.high 0x7A ||
    Nat.ble 0x80 r.low && ((0x130, 0x130) :: (0xD800, 0xDFFF) :: blankRanges).all r.avoids &&
      Nat.blt r.high 0x110000

/-- Whether no code point of a run in lower case has a lower case of its own. -/
def isFinal (r : CaseRun) : Bool :=
  caseRuns.all fun s => r.avoids (s.first, s.last) || r.images.all fun n => !s.covers n

theorem mem_images {r : CaseRun} {n : Nat} (h : r.covers n) : (n + r.shift : Int).toNat ∈ r.images := by
  simp only [covers, Bool.and_eq_true, decide_eq_true_eq, beq_iff_eq] at h
  obtain ⟨⟨hfirst, hlast⟩, hstep⟩ := h
  have hquotient := Nat.div_mul_cancel (Nat.dvd_of_mod_eq_zero hstep)
  have hn : r.first + (n - r.first) / r.step * r.step = n := by omega
  refine List.mem_map.mpr ⟨(n - r.first) / r.step, List.mem_range.mpr ?_, by rw [hn]⟩
  exact Nat.lt_succ_of_le (Nat.div_le_div_right (by omega))

theorem bounds {r : CaseRun} {n : Nat} (h : r.covers n) :
    r.low ≤ (n + r.shift : Int).toNat ∧ (n + r.shift : Int).toNat ≤ r.high := by
  simp only [covers, Bool.and_eq_true, decide_eq_true_eq] at h
  unfold low high
  omega

theorem avoids_elim {r : CaseRun} {n : Nat} {range : Nat × Nat} (h : r.covers n)
    (havoids : r.avoids range) :
    ¬(range.1 ≤ (n + r.shift : Int).toNat ∧ (n + r.shift : Int).toNat ≤ range.2) := by
  have hbounds := bounds h
  simp only [avoids, Bool.or_eq_true, Nat.blt_eq] at havoids
  omega

end CaseRun

theorem caseRuns_legible : caseRuns.all CaseRun.isLegible = true := by
  decide +kernel

theorem caseRuns_final : caseRuns.all CaseRun.isFinal = true := by
  decide +kernel

theorem find?_image {r : CaseRun} {n : Nat} (hr : r ∈ caseRuns) (h : r.covers n) :
    caseRuns.find? (·.covers (n + r.shift : Int).toNat) = none := by
  refine List.find?_eq_none.mpr fun s hs hcovers => ?_
  have hfinal := List.all_eq_true.mp (List.all_eq_true.mp caseRuns_final r hr) s hs
  rcases (Bool.or_eq_true _ _).mp hfinal with havoids | himages
  · refine CaseRun.avoids_elim h havoids ?_
    simp only [CaseRun.covers, Bool.and_eq_true, decide_eq_true_eq] at hcovers
    exact hcovers.1
  · have hnot := List.all_eq_true.mp himages _ (CaseRun.mem_images h)
    rw [hcovers] at hnot
    cases hnot

theorem lowers_of_run {c : Char} {r : CaseRun} (hr : r ∈ caseRuns) (h : r.covers c.toNat) :
    Lowers c (Char.ofNat (c.toNat + r.shift : Int).toNat) := by
  have hfind := find?_image hr h
  have hlegible := List.all_eq_true.mp caseRuns_legible r hr
  have hbounds := CaseRun.bounds h
  have hout (range : Nat × Nat) (hrange : r.avoids range) := CaseRun.avoids_elim h hrange
  generalize (c.toNat + r.shift : Int).toNat = n at *
  rcases (Bool.or_eq_true _ _).mp hlegible with hletter | hother
  · simp only [Bool.and_eq_true, Nat.ble_eq] at hletter
    have hletters : ∀ n < 0x7B, 0x61 ≤ n → lowerCase (Char.ofNat n) = [Char.ofNat n] ∧
        isNameChar (Char.ofNat n) ∧ !(Char.ofNat n).isDigit ∧ Char.ofNat n ≠ '.' := by
      decide +kernel
    obtain ⟨hfixed, hname, hdigit, hpoint⟩ := hletters n (by omega) (by omega)
    exact ⟨hfixed, fun _ => hname, fun hd => by simp [hd] at hdigit, fun hp => absurd hp hpoint⟩
  · simp only [Bool.and_eq_true, Nat.ble_eq, Nat.blt_eq, List.all_cons, List.all_eq_true] at hother
    obtain ⟨⟨hlow, hdotted, hsurrogate, hblanks⟩, hhigh⟩ := hother
    have hdotted := hout _ hdotted
    have hsurrogate := hout _ hsurrogate
    dsimp only at hdotted hsurrogate
    have hcode : (Char.ofNat n).toNat = n := by
      apply toNat_ofNat
      rcases Nat.lt_or_ge n 0xD800 with hless | hmore
      · exact .inl hless
      · exact .inr ⟨by omega, by omega⟩
    have hblank : isBlank (Char.ofNat n) = false := by
      refine List.any_eq_false.mpr fun b hb hin => ?_
      rw [hcode, Bool.and_eq_true, decide_eq_true_eq, decide_eq_true_eq] at hin
      exact hout b (hblanks b hb) hin
    have hascii : 0x80 ≤ (Char.ofNat n).toNat := by omega
    refine ⟨?_, fun _ => isNameChar_of_not_ascii hascii hblank, fun hd => ?_, fun hp => ?_⟩
    · rw [lowerCase, if_neg (by omega), lowerCaseByTable, hcode, if_neg (by omega), hfind]
    · have hdigit : (Char.ofNat n).toNat ≤ 0x39 := (Char.isDigit_iff_toNat.mp hd).2
      omega
    · rw [hp] at hascii
      exact absurd hascii (by decide)

theorem lowers_of_mem {c d : Char} (h : d ∈ lowerCase c) : Lowers c d := by
  rcases Nat.lt_or_ge c.toNat 0x80 with hascii | hascii
  · exact lowers_of_ascii hascii h
  have hsame (hc : lowerCase c = [c]) : Lowers c c := ⟨hc, id, id, id⟩
  have hlower : lowerCase c = lowerCaseByTable c := by rw [lowerCase, if_neg (by omega)]
  rw [hlower] at h
  unfold lowerCaseByTable at h
  split at h
  · have hpair : ['i', Char.ofNat 0x307].all (fun d =>
        lowerCase d == [d] && isNameChar d && !d.isDigit && d != '.') = true := by
      decide +kernel
    obtain ⟨⟨⟨hfixed, hname⟩, hdigit⟩, hpoint⟩ : ((lowerCase d = [d] ∧ isNameChar d = true) ∧
        d.isDigit = false) ∧ d ≠ '.' := by
      simpa using List.all_eq_true.mp hpair d h
    exact ⟨hfixed, fun _ => hname, fun hd => by simp [hd] at hdigit, fun hp => absurd hp hpoint⟩
  · rename_i hdotted
    cases hfind : caseRuns.find? (·.covers c.toNat) with
    | some r =>
      rw [hfind] at h
      obtain rfl := List.mem_singleton.mp h
      have hcovers := List.find?_some hfind
      exact lowers_of_run (List.mem_of_find?_eq_some hfind) hcovers
    | none =>
      rw [hfind] at h
      obtain rfl := List.mem_singleton.mp h
      refine hsame ?_
      rw [hlower, lowerCaseByTable, if_neg hdotted, hfind]

theorem lowerCase_ne_nil (c : Char) : lowerCase c ≠ [] := by
  unfold lowerCase lowerCaseByTable
  split
  · nofun
  · split
    · nofun
    · split <;> nofun

theorem foldChars_of_fixed {cs : List Char} (h : ∀ c ∈ cs, lowerCase c = [c]) : foldChars cs = cs := by
  induction cs with
  | nil => rfl
  | cons c cs ih =>
    have hc := h c (List.mem_cons_self ..)
    have hcs := ih fun d hd => h d (List.mem_cons_of_mem _ hd)
    rw [foldChars, List.flatMap_cons, hc, ← foldChars, hcs]
    rfl

end Text

/-! ### Tokens -/

/-- Whether a text starts like a number. -/
def startsNumber (cs : List Char) : Bool :=
  match cs with
  | [] => false
  | c :: cs => c.isDigit || (c == '.' && (cs.head?.map Char.isDigit).getD false)

/-- A name as the lexer yields it. -/
structure ProperName (name : String) : Prop where
  nonempty : name.toList ≠ []
  chars : ∀ c ∈ name.toList, isNameChar c
  fixed : ∀ c ∈ name.toList, Text.lowerCase c = [c]
  start : startsNumber name.toList = false
  ident : Token.ofWord name = .ident name

/-- A token as the lexer yields it: names are proper, numbers have no sign, and strings do not run
over a line break. -/
def Token.Proper : Token → Prop
  | .ident name => ProperName name
  | .number x => Number.Unsigned x
  | .text s => ∀ c ∈ s.toList, isNewline c = false
  | _ => True

theorem startsNumber_foldChars {cs : List Char} (h : startsNumber cs = false) :
    startsNumber (Text.foldChars cs) = false := by
  -- What matters of a character is whether its lower case starts with a digit or a point.
  have hhead (c : Char) (rest : List Char) : ∃ d ds, Text.lowerCase c = d :: ds ∧ Text.Lowers c d ∧
      Text.foldChars (c :: rest) = d :: (ds ++ Text.foldChars rest) := by
    obtain ⟨d, ds, hlower⟩ := List.exists_cons_of_ne_nil (Text.lowerCase_ne_nil c)
    refine ⟨d, ds, hlower, Text.lowers_of_mem (by simp [hlower]), ?_⟩
    rw [Text.foldChars, List.flatMap_cons, hlower]
    rfl
  cases cs with
  | nil => rfl
  | cons c rest =>
    obtain ⟨d, ds, hlower, hlowers, hfold⟩ := hhead c rest
    simp only [startsNumber, Bool.or_eq_false_iff, Bool.and_eq_false_iff, beq_eq_false_iff_ne] at h
    simp only [hfold, startsNumber, Bool.or_eq_false_iff, Bool.and_eq_false_iff, beq_eq_false_iff_ne]
    refine ⟨?_, ?_⟩
    · rw [Bool.eq_false_iff]
      intro hd
      exact absurd (hlowers.digit hd) (by simp [h.1])
    · rcases Decidable.em (d = '.') with rfl | hd
      · have hc := hlowers.point rfl
        subst hc
        have hds : ds = [] := by
          have hpoint : Text.lowerCase '.' = ['.'] := by decide
          rw [hpoint] at hlower
          exact (List.cons.inj hlower).2.symm
        subst hds
        have hnext := h.2.resolve_left (· rfl)
        refine .inr ?_
        cases rest with
        | nil => rfl
        | cons c' rest =>
          obtain ⟨d', ds', -, hlowers', hfold'⟩ := hhead c' rest
          rw [List.nil_append, hfold']
          simp only [List.head?_cons, Option.map_some, Option.getD_some] at hnext ⊢
          rw [Bool.eq_false_iff]
          intro hd
          exact absurd (hlowers'.digit hd) (by simp [hnext])
      · exact .inl hd

theorem Token.ofWord_cases (s : String) :
    (∃ w, Token.ofWord s = .word w) ∨ (∃ op, Token.ofWord s = .operator op) ∨
      Token.ofWord s = .ident s := by
  unfold Token.ofWord
  split
  · exact .inl ⟨_, rfl⟩
  · split
    · exact .inr (.inl ⟨_, rfl⟩)
    · exact .inr (.inr rfl)

theorem startsNumber_takeWhile {c : Char} {cs : List Char} (p : Char → Bool)
    (h : startsNumber (c :: cs) = false) : startsNumber (c :: cs.takeWhile p) = false := by
  cases cs with
  | nil => exact h
  | cons d cs =>
    cases hd : p d with
    | true => rw [List.takeWhile_cons_of_pos hd]; exact h
    | false =>
      rw [List.takeWhile_cons_of_neg (by simp [hd])]
      simp only [startsNumber, Bool.or_eq_false_iff] at h ⊢
      exact ⟨h.1, by simp⟩

namespace Cursor

theorem properName_of_ofWord {cs : List Char} (hne : cs ≠ []) (hchars : ∀ c ∈ cs, isNameChar c)
    (hstart : startsNumber cs = false)
    (h : Token.ofWord (String.ofList (Text.foldChars cs)) =
      .ident (String.ofList (Text.foldChars cs))) :
    ProperName (String.ofList (Text.foldChars cs)) := by
  have hmem : ∀ d ∈ (String.ofList (Text.foldChars cs)).toList, ∃ c ∈ cs, Text.Lowers c d := by
    intro d hd
    rw [String.toList_ofList, Text.foldChars] at hd
    obtain ⟨c, hc, hlower⟩ := List.mem_flatMap.mp hd
    exact ⟨c, hc, Text.lowers_of_mem hlower⟩
  refine ⟨?_, ?_, ?_, ?_, h⟩
  · obtain ⟨c, rest, rfl⟩ := List.exists_cons_of_ne_nil hne
    obtain ⟨d, ds, hlower⟩ := List.exists_cons_of_ne_nil (Text.lowerCase_ne_nil c)
    rw [String.toList_ofList, Text.foldChars, List.flatMap_cons, hlower]
    nofun
  · intro d hd
    obtain ⟨c, hc, hlowers⟩ := hmem d hd
    exact hlowers.name (hchars c hc)
  · intro d hd
    obtain ⟨c, -, hlowers⟩ := hmem d hd
    exact hlowers.fixed
  · rw [String.toList_ofList]
    exact startsNumber_foldChars hstart

theorem readWord_proper {c : Char} {cs : List Char} {token : Token} (hc : isNameChar c)
    (hstart : startsNumber (c :: cs) = false) (h : (readWord (c :: cs)).result = .ok token) :
    token.Proper := by
  unfold readWord at h
  rw [List.takeWhile_cons_of_pos hc] at h
  obtain rfl := Except.ok.inj h
  rcases Token.ofWord_cases (String.ofList (Text.foldChars (c :: cs.takeWhile isNameChar))) with
    ⟨w, hword⟩ | ⟨op, hop⟩ | hname
  · rw [hword]
    trivial
  · rw [hop]
    trivial
  · rw [hname]
    refine properName_of_ofWord (by simp) ?_ (startsNumber_takeWhile _ hstart) hname
    intro d hd
    rcases List.mem_cons.mp hd with rfl | hd
    · exact hc
    · exact List.all_eq_true.mp List.all_takeWhile d hd

theorem readString_proper {quote : Char} {cs : List Char} {token : Token}
    (h : (readString quote cs).result = .ok token) : token.Proper := by
  simp only [readString] at h
  split at h
  · obtain rfl := Except.ok.inj h
    intro c hc
    rw [String.toList_ofList] at hc
    have hkept := List.all_eq_true.mp List.all_takeWhile c hc
    simp only [Bool.and_eq_true, Bool.not_eq_true'] at hkept
    exact hkept.2
  · cases h

theorem readNumber_proper {c : Char} {cs : List Char} {token : Token}
    (h : (readNumber c cs).result = .ok token) : token.Proper := by
  have hdecimal : (readDecimal (c :: cs)).result = .ok token → token.Proper := by
    intro hread
    simp only [readDecimal] at hread
    split at hread <;> (obtain rfl := Except.ok.inj hread; exact Number.unsigned_ofDecimal ..)
  have hhex {more : List Char} : (readHex more).result = .ok token → token.Proper := by
    intro hread
    simp only [readHex] at hread
    split at hread
    · cases hread
    · obtain rfl := Except.ok.inj hread
      exact Number.unsigned_ofHexDigits _
  unfold readNumber at h
  split at h
  · exact hhex h
  · exact hhex h
  · split at h
    · exact hdecimal h
    · split at h
      · obtain rfl := Except.ok.inj h
        exact Number.unsigned_ofScientific ..
      · cases h
  · obtain rfl := Except.ok.inj h
    exact Number.unsigned_ofScientific ..
  · exact hdecimal h

theorem readSymbol_proper {c : Char} {cs : List Char} {single token : Token}
    (hsingle : Token.ofChar? c = some single) (h : (readSymbol c cs single).result = .ok token) :
    token.Proper := by
  unfold readSymbol at h
  split at h
  · obtain rfl := Except.ok.inj h
    trivial
  · obtain rfl := Except.ok.inj h
    trivial
  · obtain rfl := Except.ok.inj h
    trivial
  · obtain rfl := Except.ok.inj h
    unfold Token.ofChar? at hsingle
    split at hsingle <;> first | (obtain rfl := Option.some.inj hsingle; trivial) | cases hsingle

theorem readToken_proper {c : Char} {cs : List Char} {token : Token}
    (hblank : Text.isBlank c = false) (hhash : c ≠ '#')
    (h : (readToken c cs).result = .ok token) : token.Proper := by
  unfold readToken at h
  split at h
  · exact readString_proper h
  · rename_i hquote
    split at h
    · exact readNumber_proper h
    · rename_i hnumber
      split at h
      · rename_i single hsingle
        exact readSymbol_proper hsingle h
      · rename_i hsymbol
        refine readWord_proper ?_ (by simpa [startsNumber] using hnumber) h
        simp only [not_or] at hquote
        simp [isNameChar, isSeparator, hblank, hsymbol, hquote, hhash]

theorem scan_proper {c c' : Cursor} {lexeme : Lexeme} (h : c.scan = (.ok (some lexeme), c')) :
    lexeme.token.Proper := by
  simp only [scan] at h
  split at h
  · cases h
  · rename_i ch cs hrest
    split at h
    · rename_i token hok
      obtain ⟨hlexeme, -⟩ := Prod.mk.inj h
      obtain rfl := Option.some.inj (Except.ok.inj hlexeme)
      have hhead := skipFrom_head hrest
      exact readToken_proper hhead.1 hhead.2 hok
    · cases h

end Cursor

end LineBasic
