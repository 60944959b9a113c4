import Mathlib.Data.List.Basic
import LineBasic.Proofs.Printing
import LineBasic.Proofs.SoundReading

/-!
# Printed expressions of programs

An expression that a program assigns reads as itself, up to positions, when it is printed and
assigned again. What readers build has proper names and complete selectors; what remains to be
asked for is that its numbers and strings can be written and that no sign meets another one.
-/

namespace LineBasic

set_option autoImplicit false

open Parse

namespace Expr

mutual

/-- An expression and everything in it. -/
def parts : Expr → List Expr
  | select pos name first more =>
    select pos name first more :: (partsList first ++ partsLevels more)
  | unary pos op e => unary pos op e :: parts e
  | binary pos op l r => binary pos op l r :: (parts l ++ parts r)
  | list pos items => list pos items :: partsList items
  | e => [e]

def partsList : List Expr → List Expr
  | [] => []
  | e :: es => parts e ++ partsList es

def partsLevels : List (List Expr) → List Expr
  | [] => []
  | level :: more => partsList level ++ partsLevels more

end

/-- Whether the expression itself, without what is deeper in it, can be printed and read: its
number is not infinite, its string has no double quote, and no sign stands behind a sign or beside
a power. -/
def isPlain : Expr → Bool
  | number _ x => !x.isInf
  | text _ s => !s.toList.contains '"'
  | unary _ _ e => !e.isUnary
  | binary _ .power l r => !l.isUnary && !r.isUnary
  | _ => true

theorem mem_parts (e : Expr) : e ∈ e.parts := by
  cases e <;> simp [parts]

theorem mem_partsList {p e : Expr} {es : List Expr} (he : e ∈ es) (hp : p ∈ e.parts) :
    p ∈ partsList es := by
  induction es with
  | nil => cases he
  | cons e' es ih =>
    rw [partsList]
    rcases List.mem_cons.mp he with rfl | he
    · exact List.mem_append_left _ hp
    · exact List.mem_append_right _ (ih he)

theorem mem_partsLevels {p : Expr} {level : List Expr} {levels : List (List Expr)}
    (hlevel : level ∈ levels) (hp : p ∈ partsList level) : p ∈ partsLevels levels := by
  induction levels with
  | nil => cases hlevel
  | cons level' levels ih =>
    rw [partsLevels]
    rcases List.mem_cons.mp hlevel with rfl | hlevel
    · exact List.mem_append_left _ hp
    · exact List.mem_append_right _ (ih hlevel)

theorem mem_parts_select {pos : Pos} {name : String} {p e : Expr} {first level : List Expr}
    {more : List (List Expr)} (hlevel : level ∈ first :: more) (he : e ∈ level) (hp : p ∈ e.parts) :
    p ∈ (select pos name first more).parts := by
  rw [parts]
  refine List.mem_cons_of_mem _ ?_
  rcases List.mem_cons.mp hlevel with rfl | hlevel
  · exact List.mem_append_left _ (mem_partsList he hp)
  · exact List.mem_append_right _ (mem_partsLevels hlevel (mem_partsList he hp))

/-- What readers build is legible where it is plain and numbers print as their digits. -/
theorem Sound.legible {e : Expr} (h : e.Sound) (hplain : ∀ p ∈ e.parts, p.isPlain = true)
    (hdigits : ∀ pos x, Expr.number pos x ∈ e.parts → x.isFinite = true → 0 ≤ x →
      Number.Written x (Number.text x).toList) : e.Legible := by
  induction h with
  | @number pos x h =>
    have hinf : x.isInf = false := by simpa [isPlain] using hplain _ (mem_parts _)
    exact .number pos (hdigits pos x (mem_parts _) (h.isFinite hinf) h.nonneg)
  | @text pos s h =>
    have hquote : '"' ∉ s.toList := by simpa [isPlain] using hplain _ (mem_parts _)
    exact .text pos fun c hc => ⟨h c hc, fun hsame => hquote (hsame ▸ hc)⟩
  | bool pos b => exact .bool pos b
  | var pos h => exact .var pos h
  | call pos h => exact .call pos h
  | select pos h hlevels hsound ih =>
    refine .select pos h hlevels fun level hlevel e he => ih level hlevel e he ?_ ?_
    · exact fun p hp => hplain p (mem_parts_select hlevel he hp)
    · exact fun pos x hx => hdigits pos x (mem_parts_select hlevel he hx)
  | @unary pos op e h ih =>
    have he : e.isUnary = false := by simpa [isPlain] using hplain _ (mem_parts _)
    have hdeeper {p : Expr} (hp : p ∈ e.parts) : p ∈ (Expr.unary pos op e).parts := by
      simp [parts, hp]
    exact .unary pos op he (ih (fun p hp => hplain p (hdeeper hp))
      fun pos x hx => hdigits pos x (hdeeper hx))
  | @binary pos op l r hl hr ihl ihr =>
    have hpower : op = .power → l.isUnary = false ∧ r.isUnary = false := by
      rintro rfl
      simpa [isPlain] using hplain _ (mem_parts _)
    have hdeeper {p : Expr} (hp : p ∈ l.parts ∨ p ∈ r.parts) :
        p ∈ (Expr.binary pos op l r).parts := by
      simp [parts, hp]
    exact .binary pos op hpower
      (ihl (fun p hp => hplain p (hdeeper (.inl hp))) fun pos x hx => hdigits pos x (hdeeper (.inl hx)))
      (ihr (fun p hp => hplain p (hdeeper (.inr hp))) fun pos x hx => hdigits pos x (hdeeper (.inr hx)))

end Expr

/-! ### Assignments of printed expressions -/

theorem statement_of_assignment {n : Nat} {d : Draft} {l m : Lexer} {name : String} {pos : Pos}
    {past : Nat} {lead : Bool} {e : Expr} (h : e.Legible)
    (hnext : next l = .ok (some ⟨.ident name, pos, past, lead⟩, m))
    (hgives : m.Gives (.operator .equal :: e.tokens)) (hn : e.tokens.length < n) :
    ∃ e' l', Build.statement (n + 1) d l = .ok ((some (.assign pos name e'), d), l') ∧
      e'.bare = e.bare ∧ l'.Gives [] := by
  obtain ⟨o, l₁, hpeek, ho, -, hgives⟩ := hgives.peek
  obtain ⟨l₂, hpeekToken, hgives⟩ := hgives.peekToken
  obtain ⟨_, _, l₃, hequal, hgives⟩ := hgives.next
  rw [← List.append_nil e.tokens] at hgives hn
  obtain ⟨e', l₄, hexpr, hbare, hrest⟩ := (h.recovered.expression h hn hgives nofun nofun).required
  refine ⟨e', l₄, ?_, hbare, hrest⟩
  have hlabel : Lexeme.isLabel ⟨.ident name, pos, past, lead⟩ o = false := by
    rw [Bool.eq_false_iff]
    intro hlabel
    obtain ⟨after, rfl, htoken⟩ := Option.map_eq_some_iff.mp ho
    rw [Lexeme.token_of_isLabel hlabel] at htoken
    cases htoken
  have hassign : Build.assignmentOrCommand n pos name d l₁ = .ok ((.assign pos name e', d), l₄) := by
    rw [Build.assignmentOrCommand, Build.bind_of_ok (Build.lift_of_ok hpeekToken)]
    dsimp only [List.head?_cons]
    rw [Build.bind_of_ok (Build.lift_of_ok hequal), expr, Build.bind_of_ok (Build.lift_of_ok hexpr)]
    rfl
  rw [Build.statement_of_next hnext, Build.following, Build.statementFrom]
  dsimp only [Build.lift_self]
  rw [Build.bind_of_ok (Build.lift_of_ok hpeek), hlabel, map_eq_pure_bind, if_neg (by simp),
    Build.bind_of_ok hassign]
  rfl

theorem parse_of_statement {source : String} {n : Nat} {s : Stmt LoopId} {l : Lexer}
    (hlength : source.length = n + 1)
    (h : Build.statement (n + 1 + 1) {} (Lexer.ofSource source) = .ok ((some s, {}), l))
    (hend : l.Gives []) : parse source = .ok ⟨#[s.mapExit fun _ => 0], [], []⟩ := by
  obtain ⟨c, hfill⟩ := hend
  have hprogram : Build.program (n + 1 + 1) {} (Lexer.ofSource source) =
      .ok (((), { statements := #[s] }), ⟨c, none, false⟩) := by
    rw [Build.program_succ, Build.bind_of_ok h]
    change Build.program (n + 1) _ l = _
    rw [Build.program_succ, Build.bind_of_ok (Build.statement_of_end (next_of_fill hfill))]
    rfl
  rw [← hlength] at hprogram
  exact parse_of_program hprogram (by simp [Draft.finish])

theorem parse_assignment_of_spells {w t name : String} (hw : NameText w.toList name) {e : Expr}
    (h : e.Legible) (ht : Spells t.toList e.tokens) :
    ∃ e', parse (w ++ " = " ++ t) = .ok ⟨#[.assign ⟨1, 1⟩ name e'], [], []⟩ ∧ e'.bare = e.bare := by
  have hsource : (w ++ " = " ++ t).toList = w.toList ++ ' ' :: '=' :: ' ' :: t.toList := by
    simp
  have hscan : (Cursor.ofSource (w ++ " = " ++ t)).scan =
      (.ok (some ⟨.ident name, ⟨1, 1⟩, 1 + w.toList.length, true⟩),
        ⟨' ' :: '=' :: ' ' :: t.toList, ⟨1, 1 + w.toList.length⟩, false⟩) := by
    rw [Cursor.ofSource, hsource]
    exact hw.scan (.cons rfl _) ⟨1, 1⟩ true
  have hspells : Spells ('=' :: ' ' :: t.toList) (.operator .equal :: e.tokens) :=
    .symbol '=' rfl (fun _ c hc => Option.some.inj hc ▸ rfl) ht.blank
  have hgives := (hspells.blank ⟨1, 1 + w.toList.length⟩).gives
    (some ⟨.ident name, ⟨1, 1⟩, 1 + w.toList.length, true⟩)
  obtain ⟨n, hfuel, hn⟩ : ∃ n, (w ++ " = " ++ t).length = n + 1 ∧ e.tokens.length < n + 1 := by
    have hlength := hgives.length_le
    have hsize : (w ++ " = " ++ t).length = w.length + (t.length + 2) + 1 := by
      rw [← String.length_toList, hsource]
      simp only [List.length_append, List.length_cons, String.length_toList]
      omega
    simp only [Lexer.size, List.length_cons, String.length_toList, Bool.false_and,
      Bool.false_eq_true, if_false] at hlength
    exact ⟨_, hsize, by omega⟩
  obtain ⟨e', l, hstatement, hbare, hend⟩ := statement_of_assignment (d := {}) h
    (next_of_fill (fill_ofSource hscan)) hgives hn
  exact ⟨e', parse_of_statement hfuel hstatement hend, hbare⟩

theorem nameText_x : NameText "x".toList "x" :=
  ⟨nofun, List.forall_mem_singleton.mpr rfl, rfl, rfl, rfl⟩

theorem Expr.Legible.spells_display {e : Expr} (h : e.Legible) : Spells e.display.toList e.tokens := by
  have hexpr := h.spelled [] [] (by simp [Ends]) .nil
  rwa [List.append_nil, List.append_nil] at hexpr

theorem parse_assignment {e : Expr} (h : e.Legible) :
    ∃ e', parse ("x = " ++ e.display) = .ok ⟨#[.assign ⟨1, 1⟩ "x" e'], [], []⟩ ∧
      e'.bare = e.bare := by
  have hx : "x" ++ " = " = "x = " := rfl
  rw [← hx]
  exact parse_assignment_of_spells nameText_x h h.spells_display

/-- What a program assigns reads as itself when it is printed and assigned again, up to positions,
if it is plain and its numbers are printed as their digits. -/
theorem parse_display {source : String} {code : Code} (h : parse source = .ok code)
    {s : Stmt Address} (hs : s ∈ code.statements) {e : Expr} (he : e ∈ s.rightSides)
    (hplain : ∀ p ∈ e.parts, p.isPlain = true)
    (hdigits : ∀ pos x, Expr.number pos x ∈ e.parts → x.isFinite = true → 0 ≤ x →
      Number.Written x (Number.text x).toList) :
    ∃ e', parse ("x = " ++ e.display) = .ok ⟨#[.assign ⟨1, 1⟩ "x" e'], [], []⟩ ∧
      e'.bare = e.bare :=
  parse_assignment (((sound_of_parse h s hs).rightSides e he).legible hplain hdigits)

set_option maxRecDepth 4096 in
/-- A sign in front of a power of an element, with two levels of arguments. -/
theorem parse_display_power :
    let source := "y = -f(0, \"s\" : b() mod c) ^ d <> true"
    let e : Expr := .binary ⟨1, 32⟩ .notEqual
      (.unary ⟨1, 5⟩ .negate (.binary ⟨1, 28⟩ .power
        (.select ⟨1, 6⟩ "f" [.number ⟨1, 8⟩ 0, .text ⟨1, 11⟩ "s"]
          [[.binary ⟨1, 21⟩ .modulus (.select ⟨1, 17⟩ "b" [] []) (.var ⟨1, 25⟩ "c")]])
        (.var ⟨1, 30⟩ "d")))
      (.bool ⟨1, 35⟩ true)
    parse source = .ok ⟨#[.assign ⟨1, 1⟩ "y" e], [], []⟩ ∧ (∀ p ∈ e.parts, p.isPlain = true) ∧
      (∀ pos x, Expr.number pos x ∈ e.parts → x.isFinite = true → 0 ≤ x →
        Number.Written x (Number.text x).toList) ∧
      ∃ e', parse "x = (-(f(0, \"s\" : (b() mod c)) ^ d) <> true)" =
        .ok ⟨#[.assign ⟨1, 1⟩ "x" e'], [], []⟩ ∧ e'.bare = e.bare := by
  intro source e
  have h : parse source = .ok ⟨#[.assign ⟨1, 1⟩ "y" e], [], []⟩ := by decide +kernel
  have hplain : ∀ p ∈ e.parts, p.isPlain = true := by
    simp [e, Expr.parts, Expr.partsList, Expr.partsLevels, Expr.isPlain, Expr.isUnary]
    decide +kernel
  have hdigits : ∀ pos x, Expr.number pos x ∈ e.parts → x.isFinite = true → 0 ≤ x →
      Number.Written x (Number.text x).toList := by
    intro pos x hx _ _
    obtain ⟨-, rfl⟩ : pos = ⟨1, 8⟩ ∧ x = 0 := by
      simpa [e, Expr.parts, Expr.partsList, Expr.partsLevels] using hx
    have htext : (Number.text 0).toList = ['0'] := by decide +kernel
    rw [htext]
    exact .whole (by simp) (List.forall_mem_singleton.mpr rfl) (by decide +kernel)
  have htext : "x = " ++ e.display = "x = (-(f(0, \"s\" : (b() mod c)) ^ d) <> true)" := by
    decide +kernel
  refine ⟨h, hplain, hdigits, ?_⟩
  rw [← htext]
  exact parse_display h (Array.mem_singleton.mpr rfl) (List.mem_singleton.mpr rfl) hplain hdigits

end LineBasic
