import LineBasic.Token.Lexer

/-!
# Every token is paid for with characters

A token takes at least one character of the source. The size of a lexer counts the characters that
are still to be read and a token that is held; taking a token makes it smaller and looking at one
never makes it larger. This is the measure behind every loop of the parser.
-/

namespace LineBasic

set_option autoImplicit false

namespace Cursor

theorem step_code_eq_none {c : Char} {cs : List Char} (h : Gap.step c cs .code = none) :
    Text.isBlank c = false ∧ c ≠ '#' := by
  simp only [Gap.step] at h
  split at h
  · simp at h
  · rename_i hblank
    split at h
    · simp at h
    · rename_i hhash
      exact ⟨by simpa using hblank, hhash⟩

/-- Only code lets a token start; inside a comment the gap goes on. -/
theorem eq_code_of_step_eq_none {c : Char} {cs : List Char} {gap : Gap}
    (h : gap.step c cs = none) : gap = .code := by
  cases gap with
  | code => rfl
  | comment => simp [Gap.step] at h
  | block mark length fresh =>
    simp only [Gap.step] at h
    split at h
    · simp at h
    · split at h <;> simp at h

theorem skipFrom_length_le (gap : Gap) (cs : List Char) (pos : Pos) (lead : Bool) :
    (skipFrom gap cs pos lead).rest.length ≤ cs.length := by
  fun_induction skipFrom gap cs pos lead with
  | case1 => simp
  | case2 gap pos lead cs ih => simp only [List.length_cons]; omega
  | case3 gap pos lead c cs _ hc ih => simp only [List.length_cons]; omega
  | case4 gap pos lead c cs _ hc next hstep ih => simp only [List.length_cons]; omega
  | case5 => simp

theorem skipFrom_head {gap : Gap} {cs : List Char} {pos : Pos} {lead : Bool} {c : Char}
    {rest : List Char} (h : (skipFrom gap cs pos lead).rest = c :: rest) :
    Text.isBlank c = false ∧ c ≠ '#' := by
  fun_induction skipFrom gap cs pos lead with
  | case1 => simp at h
  | case2 gap pos lead cs ih => exact ih h
  | case3 gap pos lead c' cs _ hc ih => exact ih h
  | case4 gap pos lead c' cs _ hc next hstep ih => exact ih h
  | case5 gap pos lead c' cs _ hc hstep =>
    obtain ⟨rfl, rfl⟩ := List.cons.inj h
    have hgap := eq_code_of_step_eq_none hstep
    subst hgap
    exact step_code_eq_none hstep

theorem readString_used_pos (quote : Char) (cs : List Char) : 0 < (readString quote cs).used := by
  unfold readString
  dsimp only
  split <;> simp

theorem readHex_used_pos (cs : List Char) : 0 < (readHex cs).used := by
  unfold readHex
  dsimp only
  split <;> simp

theorem readDecimal_used_pos {c : Char} {cs : List Char} (h : c.isDigit ∨ c = '.') :
    0 < (readDecimal (c :: cs)).used := by
  unfold readDecimal
  dsimp only
  split
  · simp only
    omega
  · rename_i hnext
    rcases h with hdigit | rfl
    · simp [hdigit]
    · exact absurd rfl (hnext cs)

theorem readNumber_used_pos {c : Char} {cs : List Char} {token : Token} (h : c.isDigit ∨ c = '.')
    (hok : (readNumber c cs).result = .ok token) : 0 < (readNumber c cs).used := by
  unfold readNumber at hok ⊢
  split at hok
  · exact readHex_used_pos _
  · exact readHex_used_pos _
  · split at hok
    · rename_i hpoint
      simp only [hpoint, if_true]
      exact readDecimal_used_pos h
    · split at hok
      · simp_all
      · simp at hok
  · simp
  · exact readDecimal_used_pos h

theorem readSymbol_used_pos (c : Char) (cs : List Char) (single : Token) :
    0 < (readSymbol c cs single).used := by
  unfold readSymbol
  split <;> simp

theorem readWord_used_pos {c : Char} {cs : List Char} (h : isNameChar c = true) :
    0 < (readWord (c :: cs)).used := by
  simp [readWord, h]

theorem readToken_used_pos {c : Char} {cs : List Char} {token : Token}
    (hblank : Text.isBlank c = false) (hhash : c ≠ '#')
    (hok : (readToken c cs).result = .ok token) : 0 < (readToken c cs).used := by
  unfold readToken at hok ⊢
  split
  · exact readString_used_pos _ _
  · rename_i hquote
    rw [if_neg hquote] at hok
    split
    · rename_i hnumber
      rw [if_pos hnumber] at hok
      refine readNumber_used_pos ?_ hok
      simp only [Bool.or_eq_true, Bool.and_eq_true, beq_iff_eq] at hnumber
      exact hnumber.imp id And.left
    · split
      · exact readSymbol_used_pos _ _ _
      · rename_i hsymbol
        apply readWord_used_pos
        simp only [not_or] at hquote
        simp [isNameChar, isSeparator, hblank, hsymbol, hquote, hhash]

theorem advance_length_lt {c : Cursor} {n : Nat} (hn : 0 < n) (hc : c.rest ≠ []) :
    (c.advance n).rest.length < c.rest.length := by
  have hlen := List.length_pos_iff.mpr hc
  simp only [advance, List.length_drop]
  omega

theorem scan_length_le {c c' : Cursor} {lexeme : Option Lexeme}
    (h : c.scan = (.ok lexeme, c')) :
    c'.rest.length + (if lexeme.isSome then 1 else 0) ≤ c.rest.length := by
  have hskip : c.skipGap.rest.length ≤ c.rest.length := skipFrom_length_le _ _ _ _
  simp only [scan] at h
  split at h
  · obtain ⟨hlexeme, rfl⟩ := Prod.mk.inj h
    obtain rfl := Except.ok.inj hlexeme
    simpa using hskip
  · rename_i ch cs hrest
    split at h
    · rename_i token hok
      obtain ⟨hlexeme, rfl⟩ := Prod.mk.inj h
      obtain rfl := Except.ok.inj hlexeme
      have hhead := skipFrom_head hrest
      have hused := readToken_used_pos hhead.1 hhead.2 hok
      have hlt := advance_length_lt hused (c := c.skipGap) (by simp [hrest])
      simp only [Option.isSome_some, if_true]
      omega
    · simp at h

theorem skipLine_length_le (c : Cursor) : c.skipLine.rest.length ≤ c.rest.length := by
  simp [skipLine, advance]

end Cursor

namespace Lexer

/-- The characters to come, and one for a token that is held. -/
def size (l : Lexer) : Nat :=
  l.cursor.rest.length + (if l.held && l.last.isSome then 1 else 0)

theorem fill_size_le {l l' : Lexer} {lexeme : Option Lexeme} (h : l.fill = (.ok lexeme, l')) :
    l'.held = true ∧ l'.last = lexeme ∧ l'.size ≤ l.size := by
  unfold fill at h
  split at h
  · rename_i hheld
    obtain ⟨hlexeme, rfl⟩ := Prod.mk.inj h
    exact ⟨hheld, Except.ok.inj hlexeme, Nat.le_refl _⟩
  · rename_i hheld
    split at h
    · rename_i lexeme' cursor hscan
      obtain ⟨hlexeme, rfl⟩ := Prod.mk.inj h
      obtain rfl := Except.ok.inj hlexeme
      have hle := Cursor.scan_length_le hscan
      refine ⟨rfl, rfl, ?_⟩
      simp only [size, Bool.true_and, hheld]
      simpa using hle
    · simp at h

theorem next_size {l l' : Lexer} {lexeme : Option Lexeme} (h : l.next = (.ok lexeme, l')) :
    l'.held = false ∧ l'.size + (if lexeme.isSome then 1 else 0) ≤ l.size := by
  unfold next at h
  split at h
  · rename_i lexeme' filled hfill
    obtain ⟨hlexeme, rfl⟩ := Prod.mk.inj h
    obtain rfl := Except.ok.inj hlexeme
    obtain ⟨hheld, rfl, hle⟩ := fill_size_le hfill
    refine ⟨rfl, ?_⟩
    simp only [size, hheld, Bool.true_and, Bool.false_and] at hle ⊢
    simpa using hle
  · simp at h

theorem skipLine_size_le (l : Lexer) : l.skipLine.size ≤ l.size := by
  have hle : l.cursor.skipLine.rest.length ≤ l.size :=
    Nat.le_trans l.cursor.skipLine_length_le (Nat.le_add_right _ _)
  unfold skipLine
  split
  · split
    · exact Nat.le_refl _
    · exact hle
  · exact hle

end Lexer

theorem size_ofSource (source : String) : (Lexer.ofSource source).size < source.length + 1 := by
  simp [Lexer.size, Lexer.ofSource, Cursor.ofSource, String.length_toList]

end LineBasic
