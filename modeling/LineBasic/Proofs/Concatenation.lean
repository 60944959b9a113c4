import Mathlib.Data.List.Basic
import LineBasic.Proofs.CoupledCode
import LineBasic.Proofs.Seams
import LineBasic.Proofs.SoundReading

/-!
# Programs one after the other

Reading is compositional over lines: a program that goes on in a new line with a second program is
read as the first one and then the second one, which stands further down.

The first part of the longer source is read side by side with the first program, the rest side by
side with the second program. The loops are numbered through; when the numbers are resolved, each
loop of the second program has its own address, moved down.
-/

namespace LineBasic

set_option autoImplicit false

/-! ### Loop numbers -/

namespace Shape

/-- The loops are numbered below the size of the table of exits, where only open loops have no
entry, and statements use no other numbers. -/
structure Numbered (f : Shape) : Prop where
  known : ∀ loop ∈ f.loops, loop.exit < f.exits.size
  entered : ∀ id < f.exits.size, f.exits.getD id 0 = 0 → ∃ loop ∈ f.loops, loop.exit = id
  named : ∀ s ∈ f.statements, ∀ id ∈ s.exits, id < f.exits.size

theorem numbered_empty : Numbered ⟨#[], [], #[]⟩ where
  known := nofun
  entered := nofun
  named := nofun

namespace Numbered

variable {f f' : Shape}

theorem opens (h : f.Numbered) {loop : OpenLoop} (hloop : loop.exit = f.exits.size) :
    Numbered { f with loops := loop :: f.loops, exits := f.exits.push 0 } where
  known := by
    intro other hother
    rw [Array.size_push]
    rcases List.mem_cons.mp hother with rfl | hother
    · exact Nat.lt_succ_of_le (Nat.le_of_eq hloop)
    · exact Nat.lt_succ_of_lt (h.known other hother)
  entered := by
    intro id hid hzero
    rw [Array.size_push] at hid
    by_cases hnew : id = f.exits.size
    · exact ⟨loop, List.mem_cons_self, hloop.trans hnew.symm⟩
    · have hold : f.exits.getD id 0 = 0 := by
        simpa [Array.getD_eq_getD_getElem?, Array.getElem?_push, hnew] using hzero
      obtain ⟨other, hother, hexit⟩ := h.entered id (by omega) hold
      exact ⟨other, List.mem_cons_of_mem _ hother, hexit⟩
  named := by
    intro s hs id hid
    rw [Array.size_push]
    exact Nat.lt_succ_of_lt (h.named s hs id hid)

theorem closes (h : f.Numbered) {loop : OpenLoop} {outer : List OpenLoop}
    (hloops : f.loops = loop :: outer) :
    Numbered { f with
      loops := outer
      exits := f.exits.setIfInBounds loop.exit (f.statements.size + 1) } where
  known := by
    intro other hother
    rw [Array.size_setIfInBounds]
    exact h.known other (hloops ▸ List.mem_cons_of_mem _ hother)
  entered := by
    intro id hid hzero
    rw [Array.size_setIfInBounds] at hid
    by_cases hclosed : loop.exit = id
    · subst hclosed
      simp [Array.getD_eq_getD_getElem?, hid] at hzero
    · have hold : f.exits.getD id 0 = 0 := by
        simpa [Array.getD_eq_getD_getElem?, Array.getElem?_setIfInBounds_ne hclosed] using hzero
      obtain ⟨other, hother, hexit⟩ := h.entered id hid hold
      rw [hloops] at hother
      rcases List.mem_cons.mp hother with rfl | hother
      · exact absurd hexit hclosed
      · exact ⟨other, hother, hexit⟩
  named := by
    intro s hs id hid
    rw [Array.size_setIfInBounds]
    exact h.named s hs id hid

theorem reads (h : f.Numbered) {s : Stmt LoopId} (hreads : f.Reads s f') :
    f'.Numbered ∧ f.exits.size ≤ f'.exits.size ∧ ∀ id ∈ s.exits, id < f'.exits.size := by
  have hmem {id exit : LoopId} {n : Nat} (hexit : exit < n) (hid : id ∈ [exit]) : id < n :=
    List.mem_singleton.mp hid ▸ hexit
  induction s generalizing f f' with
  | «for» pos header =>
    obtain ⟨-, hexit, rfl⟩ := hreads
    refine ⟨h.opens hexit, ?_, fun id => hmem ?_⟩
    · simp
    · simp [hexit]
  | next pos header =>
    obtain ⟨opening, outer, hloops, rfl⟩ := hreads
    have hknown : header.exit < f.exits.size := h.known (.for opening header) (by simp [hloops])
    refine ⟨h.closes hloops, ?_, fun id => hmem ?_⟩
    · simp
    · simpa using hknown
  | «do» pos guard header =>
    obtain ⟨-, hexit, rfl⟩ := hreads
    refine ⟨h.opens hexit, ?_, fun id => hmem ?_⟩
    · simp
    · simp [hexit]
  | loop pos guard header =>
    obtain ⟨opening, outer, hloops, rfl⟩ := hreads
    have hknown : header.exit < f.exits.size := h.known (.do opening header) (by simp [hloops])
    refine ⟨h.closes hloops, ?_, fun id => hmem ?_⟩
    · simp
    · simpa using hknown
  | when pos condition taken ih => exact ih h hreads
  | choose pos condition taken otherwise ih ih' =>
    obtain ⟨between, htaken, hotherwise⟩ := hreads
    obtain ⟨h₁, hsize₁, hexits₁⟩ := ih h htaken
    obtain ⟨h₂, hsize₂, hexits₂⟩ := ih' h₁ hotherwise
    refine ⟨h₂, Nat.le_trans hsize₁ hsize₂, fun id hid => ?_⟩
    rcases List.mem_append.mp hid with hid | hid
    · exact Nat.lt_of_lt_of_le (hexits₁ id hid) hsize₂
    · exact hexits₂ id hid
  | leave pos exit =>
    obtain ⟨hinner, rfl⟩ := hreads
    obtain ⟨loop, hloop, rfl⟩ := Option.map_eq_some_iff.mp hinner
    exact ⟨h, Nat.le_refl _, fun id => hmem (h.known loop (List.mem_of_head? hloop))⟩
  | _ =>
    obtain rfl := hreads
    exact ⟨h, Nat.le_refl _, nofun⟩

theorem push (h : f.Numbered) {s : Stmt LoopId} (hs : ∀ id ∈ s.exits, id < f.exits.size) :
    Numbered { f with statements := f.statements.push s } where
  known := h.known
  entered := h.entered
  named := by
    intro s' hs'
    rcases Array.mem_push.mp hs' with hs' | rfl
    · exact h.named s' hs'
    · exact hs

end Numbered

end Shape

theorem Shape.Grows.numbered {f g : Shape} (h : f.Grows g) (hf : f.Numbered) : g.Numbered := by
  induction h with
  | done f => exact hf
  | add hreads rest ih =>
    obtain ⟨hf', -, hexits⟩ := hf.reads hreads
    exact ih (hf'.push hexits)

/-! ### Code behind other code -/

namespace Draft

theorem finish_of_closed {d : Draft} (h : d.loops = []) :
    d.finish = .ok {
      statements := d.statements.map (·.mapExit fun loop => d.exits.getD loop 0)
      labels := d.labels.toList
      data := d.data.toList } := by
  rw [finish, h]

theorem exit_of_first {a b : Draft} (f : Pos → Pos) {id : LoopId} (h : id < a.exits.size) :
    (a.behind f b).exits.getD id 0 = a.exits.getD id 0 := by
  simp [behind, Array.getD_eq_getD_getElem?, Array.getElem?_append_left h]

theorem exit_of_second {a b : Draft} (f : Pos → Pos) {id : LoopId} (h : b.exits.getD id 0 ≠ 0) :
    (a.behind f b).exits.getD (id + a.exits.size) 0 = b.exits.getD id 0 + a.here := by
  rw [Array.getD_eq_getD_getElem?] at h ⊢
  cases hid : b.exits[id]? with
  | none => simp [hid] at h
  | some exit =>
    have hexit : exit ≠ 0 := by simpa [hid] using h
    simp [behind, Array.getElem?_append_right, hid, hexit]

/-- Each loop of the code behind `a` is resolved to its own exit, moved down. -/
theorem finish_behind {a b : Draft} {first second : Code} (ha : a.finish = .ok first)
    (hb : b.finish = .ok second) (hna : a.shape.Numbered) (hnb : b.shape.Numbered) (k : Nat) :
    (a.behind (Pos.down k) b).finish = .ok (first.append k second) := by
  have hclosed := (finish_ok ha).1
  have hclosed' := (finish_ok hb).1
  have hfirst : ∀ s ∈ a.statements, s.mapExit ((a.behind (Pos.down k) b).exits.getD · 0) =
      s.mapExit (a.exits.getD · 0) := by
    intro s hs
    rw [← Stmt.moved_zero, ← Stmt.moved_zero]
    exact Stmt.moved_congr fun id hid => exit_of_first _ (hna.named s hs id hid)
  have hsecond : ∀ s ∈ b.statements,
      (s.relocated (Pos.down k) a.here (· + a.exits.size)).mapExit
          ((a.behind (Pos.down k) b).exits.getD · 0) =
        (s.mapExit (b.exits.getD · 0)).moved k a.here (· + a.here) := by
    intro s hs
    rw [Stmt.relocated_down, Stmt.mapExit_moved, Stmt.moved_mapExit]
    refine Stmt.moved_congr fun id hid => exit_of_second _ fun hzero => ?_
    obtain ⟨loop, hloop, -⟩ := hnb.entered id (hnb.named s hs id hid) hzero
    have hnone : loop ∈ [] := (congrArg (loop ∈ ·) hclosed').mp hloop
    cases hnone
  rw [finish_of_closed hclosed] at ha
  rw [finish_of_closed hclosed'] at hb
  cases ha
  cases hb
  rw [finish_of_closed (by simp [behind, hclosed, hclosed'])]
  refine congrArg Except.ok (Code.mk.injEq .. |>.mpr ⟨?_, ?_, ?_⟩)
  · have hstatements : (a.behind (Pos.down k) b).statements = a.statements ++
        b.statements.map (Stmt.relocated (Pos.down k) a.here (· + a.exits.size)) := rfl
    rw [hstatements, Array.map_append, Array.map_map, Array.map_congr_left hfirst,
      Function.comp_def, Array.map_congr_left hsecond]
    simp [here, Function.comp_def]
  · simp [behind, here]
  · simp [behind]

end Draft

/-! ### Whole programs -/

theorem scan_of_program {source : String} {n : Nat} {d : Draft} {r : (Unit × Draft) × Lexer}
    (h : Build.program (n + 1) d (Lexer.ofSource source) = .ok r) :
    ∃ first c, (Cursor.ofSource source).scan = (.ok first, c) ∧
      ∀ lexeme ∈ first, lexeme.token ≠ .word .else := by
  rw [Build.program_succ] at h
  obtain ⟨found, d₁, l₁, hstatement, -⟩ := Build.bind_eq_ok.mp h
  cases hscan : (Cursor.ofSource source).scan with
  | mk result c =>
    cases result with
    | error e =>
      have hnext : Parse.next (Lexer.ofSource source) = .error e := by
        simp [Parse.next, Parse.ofLexer, Lexer.next, Lexer.fill, Lexer.ofSource, hscan]
      rw [Build.statement_of_error hnext] at hstatement
      cases hstatement
    | ok first =>
      refine ⟨first, c, rfl, fun lexeme hlexeme helse => ?_⟩
      obtain rfl := Option.mem_def.mp hlexeme
      rw [Build.statement_of_next (next_of_fill (fill_ofSource hscan)), Build.following,
        Build.statementFrom, helse] at hstatement
      cases hstatement

theorem linked_ofSource {a b : String} (hreturn : a.toList.getLast? ≠ some '\r') :
    Continued b.toList (lineCount a) (Cursor.ofSource a) (Cursor.ofSource (a ++ "\n" ++ b)) where
  rest := by simp [Cursor.ofSource]
  pos := rfl
  lead := rfl
  ends := hreturn
  line := Nat.add_comm ..

section

variable {a b : String} {d : Draft} {l : Lexer} {start : Option Lexeme} {behind : Cursor}
  (hstart : (Cursor.ofSource b).scan = (.ok start, behind))
include hstart

/-- The longer source is read as the first program up to the first token of the second one. -/
theorem program_first (hreturn : a.toList.getLast? ≠ some '\r') (hblocks : closesBlocks a = true)
    (helse : ∀ lexeme ∈ start, lexeme.token ≠ .word .else)
    (hrun : Build.program (a.length + 1) {} (Lexer.ofSource a) = .ok (((), d), l)) :
    ∃ j q l', Build.program ((a ++ "\n" ++ b).length + 1) {} (Lexer.ofSource (a ++ "\n" ++ b)) =
        (Build.statement j >>= Build.advance q) d l' ∧ j ≤ q + 1 ∧ l'.size < j ∧
      l'.fill = (.ok (start.map (·.down (lineCount a))),
        ⟨behind.down (lineCount a), start.map (·.down (lineCount a)), true⟩) := by
  let K := Coupling.before hstart (lineCount a) helse
  have hcloses : (Cursor.ofSource a).Closes :=
    ⟨a.length + 1, by simp [Cursor.ofSource, String.length_toList], hblocks⟩
  have hlinked : K.Linked (Cursor.ofSource a) (Cursor.ofSource (a ++ "\n" ++ b)) :=
    ⟨linked_ofSource hreturn, hcloses⟩
  have hran : K.Ran _ _ := Coupling.ran_source (Coupling.beside_of_linked hlinked none none)
    (Nat.lt_succ_self _) (Nat.lt_succ_self _)
  rw [hrun] at hran
  generalize hr : Build.program _ K.base _ = r at hran
  cases hran with
  | @ended _ _ l' j q hj size stopped =>
    obtain ⟨c, _, ⟨-, rfl⟩, hfill⟩ := stopped
    have hdraft : K.draft d = d := d.empty_behind_id
    rw [hdraft] at hr
    exact ⟨j, q, l', hr, hj, size, hfill⟩

/-- From its first token on, the second program is read as it is read alone. -/
theorem program_second {base : Draft} (hbase : base.loops = []) {k j q : Nat} {l' : Lexer}
    (hrun : Build.program (b.length + 1) {} (Lexer.ofSource b) = .ok (((), d), l))
    (hj : j ≤ q + 1) (hsize : l'.size < j)
    (hfill : l'.fill = (.ok (start.map (·.down k)), ⟨behind.down k, start.map (·.down k), true⟩)) :
    ∃ l'', (Build.statement j >>= Build.advance q) base l' =
      .ok (((), base.behind (Pos.down k) d), l'') := by
  let K := Coupling.below k base hbase
  have hbeside : K.Beside (Lexer.ofSource b) l' := by
    have hlinked : K.Linked (Cursor.ofSource b) ((Cursor.ofSource b).down k) := rfl
    have hdown := (Cursor.ofSource b).scan_down k
    rw [hstart] at hdown
    have hsame : Lexer.fill ⟨(Cursor.ofSource b).down k, none, false⟩ = l'.fill := by
      rw [hfill]
      simp [Lexer.fill, hdown]
    have hbeside := Coupling.beside_of_linked hlinked none none
    rwa [Coupling.Beside, hsame] at hbeside
  have hran := @Coupling.ran_program K _ _ _ q {} _ _ (Nat.le_refl _) hj
    ⟨hbeside, size_ofSource b, hsize⟩
  rw [← Build.program_succ, hrun, Coupling.draft, Draft.behind_empty] at hran
  rcases hran.both rfl with ⟨d', l₁, m, hd, hm, -⟩ | ⟨e, e', he, -⟩
  · cases hd
    exact ⟨m, hm⟩
  · cases he

end

/-- Reading is compositional over lines. The second program follows the first one, `lineCount`
lines and all statements of the first one further down. -/
theorem parse_lines_append {a b : String} {first second : Code} (ha : parse a = .ok first)
    (hb : parse b = .ok second) (hreturn : a.toList.getLast? ≠ some '\r')
    (hblocks : closesBlocks a = true) :
    parse (a ++ "\n" ++ b) = .ok (first.append (lineCount a) second) := by
  obtain ⟨da, la, hruna, hfinisha⟩ := parse_ok ha
  obtain ⟨db, lb, hrunb, hfinishb⟩ := parse_ok hb
  obtain ⟨start, behind, hstart, helse⟩ := scan_of_program hrunb
  obtain ⟨j, q, l', hrun, hj, hsize, hfill⟩ := program_first hstart hreturn hblocks helse hruna
  obtain ⟨l'', hrun'⟩ := program_second hstart (Draft.finish_ok hfinisha).1 hrunb hj hsize hfill
  have hna := (grows_of_program hruna).2.numbered Shape.numbered_empty
  have hnb := (grows_of_program hrunb).2.numbered Shape.numbered_empty
  exact parse_of_program (hrun.trans hrun') (Draft.finish_behind hfinisha hfinishb hna hnb _)

/-- The last line of the first program could go on, and both have loops. -/
theorem parse_lines_append_loops :
    let a := "do\nbreak\nloop\nif c then print"
    let b := "x = d\ndata true\nl: do\nloop"
    let first : Code := ⟨#[.do ⟨1, 1⟩ none ⟨0, 3⟩, .leave ⟨2, 1⟩ 3, .loop ⟨3, 1⟩ none ⟨0, 3⟩,
      .when ⟨4, 1⟩ (.var ⟨4, 4⟩ "c") (.command ⟨4, 11⟩ "print" none false)], [], []⟩
    let second : Code := ⟨#[.assign ⟨1, 1⟩ "x" (.var ⟨1, 5⟩ "d"), .do ⟨3, 4⟩ none ⟨1, 3⟩,
      .loop ⟨4, 1⟩ none ⟨1, 3⟩], [("l", 1)], [.bool true]⟩
    parse a = .ok first ∧ parse b = .ok second ∧ a.toList.getLast? ≠ some '\r' ∧
      closesBlocks a = true ∧ parse (a ++ "\n" ++ b) =
        .ok ⟨first.statements ++ #[.assign ⟨5, 1⟩ "x" (.var ⟨5, 5⟩ "d"), .do ⟨7, 4⟩ none ⟨5, 7⟩,
          .loop ⟨8, 1⟩ none ⟨5, 7⟩], [("l", 5)], [.bool true]⟩ := by
  intro a b first second
  have ha : parse a = .ok first := by decide +kernel
  have hb : parse b = .ok second := by decide +kernel
  have hreturn : a.toList.getLast? ≠ some '\r' := by decide +kernel
  have hblocks : closesBlocks a = true := by decide +kernel
  have hcount : lineCount a = 4 := by decide +kernel
  have hwhole : first.append 4 second = ⟨first.statements ++ #[.assign ⟨5, 1⟩ "x" (.var ⟨5, 5⟩ "d"),
      .do ⟨7, 4⟩ none ⟨5, 7⟩, .loop ⟨8, 1⟩ none ⟨5, 7⟩], [("l", 5)], [.bool true]⟩ := by
    simp [Code.append, first, second, Stmt.moved, Expr.down, Expr.mapPos, Pos.down, DoHeader.moved]
  refine ⟨ha, hb, hreturn, hblocks, ?_⟩
  rw [parse_lines_append ha hb hreturn hblocks, hcount, hwhole]

end LineBasic
