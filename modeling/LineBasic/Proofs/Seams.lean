import LineBasic.Proofs.Coupling
import LineBasic.Proofs.LongerText

/-!
# Sources with the same tokens

Two ways in which the tokens of a source stand in a longer one: the source is the end of the longer
one, some lines down, or the longer one goes on after it in a new line.
-/

namespace LineBasic

set_option autoImplicit false

/-! ### A source at the end of a longer one -/

/-- The same source `k` lines further down, read behind the code of `base`. -/
def Coupling.below (k : Nat) (base : Draft) (hbase : base.loops = []) : Coupling where
  move := Pos.down k
  Known _ _ := True
  Linked c c' := c' = c.down k
  Ended c c' := c.scan = (.ok none, c) ∧ c' = c.down k
  base := base
  closed := hbase
  scanned := by
    rintro c c' rfl
    have hdown := c.scan_down k
    rcases hscan : c.scan with ⟨e | _ | lexeme, c₁⟩
    · rw [hscan] at hdown
      obtain ⟨e', c', hscan', hcode⟩ := hdown
      rw [hscan']
      exact .error hcode
    · rw [hscan] at hdown
      rw [hdown]
      exact .agreed (.stop ⟨(Cursor.scan_of_end hscan).2.2, rfl⟩)
    · rw [hscan] at hdown
      have hapart := fun after d => @Cursor.touches_eq_false_of_lead _ _ d _ after hdown
      rw [hdown]
      exact .agreed (.token ⟨trivial, hapart, fun _ => c₁.skipLine_down k, fun _ => rfl⟩)
  touches _ _ := Lexeme.touches_down k _ _
  ended := by
    rintro c _ ⟨hscan, rfl⟩
    have hdown := c.scan_down k
    rw [hscan] at hdown
    exact ⟨hscan, fun _ => hdown⟩

/-! ### A source that goes on in a new line -/

/-- Cursors of a text and of the text that goes on with `more` in a new line, which is the line after
the first `k` lines. -/
structure Continued (more : List Char) (k : Nat) (c c' : Cursor) : Prop where
  rest : c'.rest = c.rest ++ '\n' :: more
  pos : c'.pos = c.pos
  lead : c'.lead = c.lead
  ends : c.rest.getLast? ≠ some '\r'
  line : c.pos.line + lineBreaks c.rest = k

theorem getLast?_ne_of_suffix {xs ys : List Char} {c : Char} (h : xs <:+ ys)
    (hlast : ys.getLast? ≠ some c) : xs.getLast? ≠ some c := by
  obtain ⟨front, rfl⟩ := h
  cases xs with
  | nil => simp
  | cons d ds => simpa [List.getLast?_append] using hlast

namespace Continued

variable {more : List Char} {k : Nat} {c c' : Cursor}

theorem advance (h : Continued more k c c') {n : Nat} (hn : n ≤ c.rest.length)
    (hline : ∀ d ∈ c.rest.take n, isNewline d = false) :
    Continued more k (c.advance n) (c'.advance n) where
  rest := by
    simp only [Cursor.advance, h.rest]
    exact List.drop_append_of_le_length hn
  pos := by simp only [Cursor.advance, h.pos]
  lead := h.lead
  ends := getLast?_ne_of_suffix (List.drop_suffix n c.rest) h.ends
  line := by
    have hbreaks := Cursor.lineBreaks_append hline (c.rest.drop n)
    rw [List.take_append_drop] at hbreaks
    rw [← h.line, hbreaks]
    rfl

theorem skipLine (h : Continued more k c c') : Continued more k c.skipLine c'.skipLine := by
  have hnewline : (!isNewline '\n') = false := rfl
  have hlength : (c'.rest.takeWhile (!isNewline ·)).length =
      (c.rest.takeWhile (!isNewline ·)).length := by
    rw [h.rest, takeWhile_append_stop (p := (!isNewline ·)) hnewline]
  unfold Cursor.skipLine
  rw [hlength]
  refine h.advance (Cursor.length_takeWhile_le _ _) fun d hd => ?_
  rw [← List.prefix_iff_eq_take.mp (List.takeWhile_prefix _)] at hd
  simpa using List.all_eq_true.mp List.all_takeWhile d hd

theorem skipGap (h : Continued more k c c') (hpast : Cursor.Gap.code.past c.rest = none) :
    Continued more k c.skipGap c'.skipGap := by
  have hskip : c'.skipGap = { c.skipGap with rest := c.skipGap.rest ++ '\n' :: more } := by
    unfold Cursor.skipGap
    rw [h.rest, h.pos, h.lead, Cursor.skipFrom_append .code _ _ _ trivial h.ends, hpast]
  rw [hskip]
  refine ⟨rfl, rfl, rfl, getLast?_ne_of_suffix (Cursor.skipFrom_suffix ..) h.ends, ?_⟩
  rw [← h.line]
  exact Cursor.skipFrom_line ..

theorem behind (h : Continued more k c c') {ch : Char} {cs : List Char} (hrest : c.rest = ch :: cs)
    {token : Token} (hch : isNewline ch = false) (hread : (Cursor.readToken ch cs).result = .ok token) :
    Continued more k { c.advance (Cursor.readToken ch cs).used with lead := false }
      { c'.advance (Cursor.readToken ch cs).used with lead := false } := by
  have hadvance := h.advance (n := (Cursor.readToken ch cs).used)
    (by rw [hrest]; exact Cursor.readToken_used_le hread)
    (by rw [hrest]; exact Cursor.take_used_line hch hread)
  exact ⟨hadvance.rest, hadvance.pos, rfl, hadvance.ends, hadvance.line⟩

/-- No token starts in the text any more, and no block comment is open. -/
theorem skipGap_end (h : Continued more k c c') {last : Cursor.Gap}
    (hpast : Cursor.Gap.code.past c.rest = some last) (hlast : last.nextLine = .code) :
    c'.skipGap = Cursor.skipGap ⟨more, ⟨k + 1, 1⟩, true⟩ := by
  have hend : c.skipGap.rest = [] := by
    rw [Cursor.skipGap, Cursor.skipFrom_rest_eq_nil, hpast]
    rfl
  have hline := Cursor.skipFrom_line .code c.rest c.pos c.lead
  rw [← Cursor.skipGap, hend, h.line] at hline
  unfold Cursor.skipGap
  rw [h.rest, h.pos, h.lead, Cursor.skipFrom_append .code _ _ _ trivial h.ends, hpast]
  dsimp only
  rw [← Cursor.skipGap, hlast, ← hline]
  rfl

end Continued

/-- Whether no block comment is open at the end of a source that is read token by token, where the
rest of a line with a remark is dropped. -/
def Cursor.closesBlocks : Nat → Cursor → Bool
  | 0, _ => false
  | n + 1, c =>
    match c.scan with
    | (.ok (some lexeme), c') =>
      closesBlocks n (if lexeme.token = .word .rem then c'.skipLine else c')
    | (.ok none, _) =>
      match Gap.code.past c.rest with
      | some (.block _ _ _) => false
      | _ => true
    | (.error _, _) => true

/-- Whether a source leaves no block comment open. -/
def closesBlocks (source : String) : Bool :=
  (Cursor.ofSource source).closesBlocks (source.length + 1)

/-- A cursor from which no block comment will be left open. -/
def Cursor.Closes (c : Cursor) : Prop :=
  ∃ n, c.rest.length < n ∧ c.closesBlocks n = true

namespace Cursor.Closes

variable {c c' : Cursor} {lexeme : Lexeme}

theorem of_end (h : c.Closes) (hscan : c.scan = (.ok none, c')) {last : Gap}
    (hpast : Gap.code.past c.rest = some last) : last.nextLine = .code := by
  obtain ⟨n, hn, hcloses⟩ := h
  obtain ⟨n, rfl⟩ : ∃ j, n = j + 1 := ⟨n - 1, by omega⟩
  rw [closesBlocks, hscan] at hcloses
  dsimp only at hcloses
  rw [hpast] at hcloses
  cases last with
  | block => cases hcloses
  | _ => rfl

theorem of_token (h : c.Closes) (hscan : c.scan = (.ok (some lexeme), c')) :
    (lexeme.token = .word .rem → c'.skipLine.Closes) ∧ (lexeme.token ≠ .word .rem → c'.Closes) := by
  obtain ⟨n, hn, hcloses⟩ := h
  obtain ⟨n, rfl⟩ : ∃ j, n = j + 1 := ⟨n - 1, by omega⟩
  have hlength := scan_length_le hscan
  simp only [Option.isSome_some, if_true] at hlength
  have hskip := c'.skipLine_length_le
  rw [closesBlocks, hscan] at hcloses
  dsimp only at hcloses
  refine ⟨fun hrem => ⟨n, by omega, ?_⟩, fun hrem => ⟨n, by omega, ?_⟩⟩
  · rwa [if_pos hrem] at hcloses
  · rwa [if_neg hrem] at hcloses

end Cursor.Closes

section

variable {more : String} {first : Option Lexeme} {behind : Cursor}
  (hfirst : (Cursor.ofSource more).scan = (.ok first, behind)) (k : Nat)
include hfirst

theorem scan_continued {c c' : Cursor} (h : Continued more.toList k c c') {last : Cursor.Gap}
    (hpast : Cursor.Gap.code.past c.rest = some last) (hlast : last.nextLine = .code) :
    c'.scan = (.ok (first.map (·.down k)), behind.down k) := by
  have hdown := (Cursor.ofSource more).scan_down k
  rw [hfirst] at hdown
  have hstart : (Cursor.ofSource more).down k = ⟨more.toList, ⟨k + 1, 1⟩, true⟩ := by
    rw [Cursor.down, Cursor.ofSource, Pos.down, Nat.add_comm]
  rw [Cursor.scan_eq, h.skipGap_end hpast hlast, ← hstart, ← Cursor.scan_eq]
  exact hdown

theorem first_leads {lexeme : Lexeme} (h : lexeme ∈ first) : lexeme.lead = true := by
  obtain rfl := Option.mem_def.mp h
  obtain ⟨ch, cs, -, -, -, hlead, -⟩ := Cursor.scan_of_token hfirst
  rw [hlead]
  exact Cursor.skipFrom_lead _ _ _ rfl

theorem scanned_continued {c c' : Cursor} (h : Continued more.toList k c c') (hcloses : c.Closes) :
    Coupling.Scanned id (fun _ _ => True) (fun c c' => Continued more.toList k c c' ∧ c.Closes)
      (fun c c' => c.scan = (.ok none, c) ∧ c' = behind.down k) (first.map (·.down k)) c.scan
      c'.scan := by
  have hnil := Cursor.skipFrom_rest_eq_nil .code c.rest c.pos c.lead
  rw [← Cursor.skipGap] at hnil
  cases hrest : c.skipGap.rest with
  | nil =>
    obtain ⟨last, hpast⟩ := Option.isSome_iff_exists.mp (hnil.mp hrest)
    have hscan : c.scan = (.ok none, c.skipGap) := by rw [Cursor.scan_eq, Cursor.scanAt, hrest]
    rw [hscan, scan_continued hfirst k h hpast (hcloses.of_end hscan hpast)]
    exact .agreed (.stop ⟨(Cursor.scan_of_end hscan).2.2, rfl⟩)
  | cons ch cs =>
    have hpast : Cursor.Gap.code.past c.rest = none := by
      rw [← Option.not_isSome_iff_eq_none, ← hnil, hrest]
      exact List.cons_ne_nil ch cs
    have hgap := h.skipGap hpast
    have hrest' : c'.skipGap.rest = ch :: (cs ++ '\n' :: more.toList) := by
      rw [hgap.rest, hrest]
      rfl
    have hread : Cursor.readToken ch (cs ++ '\n' :: more.toList) = Cursor.readToken ch cs :=
      Cursor.readToken_append rfl ch cs more.toList
    cases hresult : (Cursor.readToken ch cs).result with
    | error detail =>
      obtain ⟨e, c₁, hscan, hcode⟩ := Cursor.scanAt_of_error hrest hresult
      obtain ⟨e', c₁', hscan', hcode'⟩ := Cursor.scanAt_of_error hrest' (hread ▸ hresult)
      rw [Cursor.scan_eq, hscan, Cursor.scan_eq, hscan']
      exact .error (hcode.trans hcode'.symm)
    | ok token =>
      have hscan := Cursor.scanAt_of_ok hrest hresult
      have hscan' := Cursor.scanAt_of_ok hrest' (hread ▸ hresult)
      rw [hread, hgap.pos, hgap.lead] at hscan'
      rw [← Cursor.scan_eq] at hscan hscan'
      have hch : isNewline ch = false := isNewline_of_not_isBlank (Cursor.skipFrom_head hrest).1
      have hbehind := hgap.behind hrest hch hresult
      have hmore := hcloses.of_token hscan
      have hapart := fun after d => @Cursor.touches_eq_false_of_lead _ _ d _ after hscan'
      rw [hscan, hscan']
      refine .agreed (.token ⟨trivial, hapart, ?_, ?_⟩)
      · exact fun hrem => ⟨hbehind.skipLine, hmore.1 hrem⟩
      · exact fun hrem => ⟨hbehind, hmore.2 hrem⟩

/-- A source and the source that goes on after it in a new line, which is not an `else`. -/
def Coupling.before (helse : ∀ lexeme ∈ first, lexeme.token ≠ .word .else) : Coupling where
  move := id
  Known _ _ := True
  Linked c c' := Continued more.toList k c c' ∧ c.Closes
  Ended c c' := c.scan = (.ok none, c) ∧ c' = behind.down k
  stop := first.map (·.down k)
  fresh := by
    intro lexeme hlexeme
    obtain ⟨next, hnext, rfl⟩ := Option.map_eq_some_iff.mp hlexeme
    have hlead : next.lead = true := first_leads hfirst hnext
    exact ⟨hlead, helse next hnext⟩
  scanned h := scanned_continued hfirst k h.1 h.2
  touches := @Coupling.touches_id
  ended := by
    rintro c _ ⟨hscan, rfl⟩
    refine ⟨hscan, fun hnone => ?_⟩
    obtain rfl := Option.map_eq_none_iff.mp hnone
    have hdown := behind.scan_down k
    rw [(Cursor.scan_of_end hfirst).2.2] at hdown
    exact hdown

end

end LineBasic
