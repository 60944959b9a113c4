import LineBasic.Proofs.LoopReading

/-!
# Loops as brackets

A loop may be opened in one branch of a conditional and closed in another one or much later, but in
the order in which a program is written its loops still are brackets: what closes a loop closes the
innermost one that is open, and carries that loop's header. The addresses in a header are those of
the statements in which the loop was opened and closed.
-/

namespace LineBasic

set_option autoImplicit false

/-- What a statement has to do with loops. -/
inductive LoopMark (χ : Type) where
  | for (header : ForHeader χ)
  | next (header : ForHeader χ)
  | do (header : DoHeader χ)
  | loop (header : DoHeader χ)
  | leave (exit : χ)

namespace LoopMark

variable {χ υ : Type}

def mapExit (f : χ → υ) : LoopMark χ → LoopMark υ
  | .for header => .for (header.mapExit f)
  | .next header => .next (header.mapExit f)
  | .do header => .do (header.mapExit f)
  | .loop header => .loop (header.mapExit f)
  | .leave exit => .leave (f exit)

/-- The addresses that it can send a program to. -/
def addresses : LoopMark Address → List Address
  | .for header => [header.body, header.exit]
  | .next header => [header.body, header.exit]
  | .do header => [header.top, header.exit]
  | .loop header => [header.top, header.exit]
  | .leave exit => [exit]

end LoopMark

/-- The marks of a statement in the order in which it is written, its branches included. -/
def Stmt.marks {χ : Type} : Stmt χ → List (LoopMark χ)
  | .for _ header => [.for header]
  | .next _ header => [.next header]
  | .do _ _ header => [.do header]
  | .loop _ _ header => [.loop header]
  | .leave _ exit => [.leave exit]
  | .when _ _ taken => taken.marks
  | .choose _ _ taken otherwise => taken.marks ++ otherwise.marks
  | _ => []

theorem Stmt.marks_mapExit {χ υ : Type} (f : χ → υ) (s : Stmt χ) :
    (s.mapExit f).marks = s.marks.map (·.mapExit f) := by
  induction s with
  | when pos condition taken ih => exact ih
  | choose pos condition taken otherwise ih ih' =>
    rw [mapExit, marks, marks, ih, ih', List.map_append]
  | _ => rfl

/-- The marks of statements that stand at `place` and after it, each with the address of the
statement that it is in. -/
def marksFrom {χ : Type} (place : Address) : List (Stmt χ) → List (Address × LoopMark χ)
  | [] => []
  | s :: ss => s.marks.map (place, ·) ++ marksFrom (place + 1) ss

def Code.marks (code : Code) : List (Address × LoopMark Address) :=
  marksFrom 0 code.statements.toList

section Marks

variable {χ υ : Type}

theorem marksFrom_concat (ss : List (Stmt χ)) (s : Stmt χ) (place : Address) :
    marksFrom place (ss ++ [s]) =
      marksFrom place ss ++ s.marks.map (place + ss.length, ·) := by
  induction ss generalizing place with
  | nil => simp [marksFrom]
  | cons s' ss ih =>
    rw [List.cons_append, marksFrom, marksFrom, ih, List.append_assoc, List.length_cons,
      Nat.add_right_comm, Nat.add_assoc]

theorem marksFrom_mapExit (f : χ → υ) (ss : List (Stmt χ)) (place : Address) :
    marksFrom place (ss.map (·.mapExit f)) =
      (marksFrom place ss).map fun p => (p.1, p.2.mapExit f) := by
  induction ss generalizing place with
  | nil => rfl
  | cons s ss ih =>
    rw [List.map_cons, marksFrom, marksFrom, ih, Stmt.marks_mapExit, List.map_append, List.map_map,
      List.map_map]
    rfl

/-- A mark is in the statement that its address says. -/
theorem mem_marksFrom_iff {p : Address × LoopMark χ} {ss : List (Stmt χ)} {place : Address} :
    p ∈ marksFrom place ss ↔ ∃ k s, ss[k]? = some s ∧ p.1 = place + k ∧ p.2 ∈ s.marks := by
  induction ss generalizing place with
  | nil => simp [marksFrom]
  | cons s ss ih =>
    have hshift (k : Nat) : place + 1 + k = place + (k + 1) := by
      rw [Nat.add_assoc, Nat.add_comm 1]
    rw [marksFrom, List.mem_append, ih]
    constructor
    · rintro (h | ⟨k, t, ht, hplace, hmark⟩)
      · obtain ⟨mark, hmark, rfl⟩ := List.mem_map.mp h
        exact ⟨0, s, rfl, rfl, hmark⟩
      · exact ⟨k + 1, t, ht, hplace.trans (hshift k), hmark⟩
    · rintro ⟨k, t, ht, hplace, hmark⟩
      cases k with
      | zero =>
        cases ht
        refine .inl (List.mem_map.mpr ⟨p.2, hmark, ?_⟩)
        rw [← Nat.add_zero place, ← hplace]
      | succ k => exact .inr ⟨k, t, ht, hplace.trans (hshift k).symm, hmark⟩

theorem mem_marksFrom {p : Address × LoopMark χ} {ss : List (Stmt χ)} {place : Address}
    (h : p ∈ marksFrom place ss) : p.1 < place + ss.length := by
  obtain ⟨k, s, hs, hplace, -⟩ := mem_marksFrom_iff.mp h
  rw [hplace]
  exact Nat.add_lt_add_left (List.getElem?_eq_some_iff.mp hs).1 place

theorem mem_marksFrom_of_mem {s : Stmt χ} {ss : List (Stmt χ)} {mark : LoopMark χ} (hs : s ∈ ss)
    (hmark : mark ∈ s.marks) (place : Address) : ∃ p ∈ marksFrom place ss, p.2 = mark := by
  obtain ⟨k, hk⟩ := List.mem_iff_getElem?.mp hs
  exact ⟨(place + k, mark), mem_marksFrom_iff.mpr ⟨k, s, hk, rfl, hmark⟩, rfl⟩

end Marks

/-- Marks that are properly nested, inside of a loop with the given exit or outside of all loops. A
loop that is opened in the statement at `i` and closed in the one at `j` has its body after `i`, or
its top at `i`, and its exit after `j`. -/
inductive Balanced : Option Address → List (Address × LoopMark Address) → Prop where
  | nil (exit : Option Address) : Balanced exit []
  | leave {exit : Address} (i : Address) {rest : List (Address × LoopMark Address)}
    (hrest : Balanced (some exit) rest) : Balanced (some exit) ((i, .leave exit) :: rest)
  | for {exit : Option Address} {i j : Address} {header : ForHeader Address}
    {body rest : List (Address × LoopMark Address)} (hle : i ≤ j) (htop : header.body = i + 1)
    (hexit : header.exit = j + 1) (hbody : Balanced (some header.exit) body)
    (hrest : Balanced exit rest) :
    Balanced exit ((i, .for header) :: (body ++ (j, .next header) :: rest))
  | do {exit : Option Address} {i j : Address} {header : DoHeader Address}
    {body rest : List (Address × LoopMark Address)} (hle : i ≤ j) (htop : header.top = i)
    (hexit : header.exit = j + 1) (hbody : Balanced (some header.exit) body)
    (hrest : Balanced exit rest) :
    Balanced exit ((i, .do header) :: (body ++ (j, .loop header) :: rest))

namespace Balanced

variable {exit : Option Address} {ms ms' : List (Address × LoopMark Address)}

theorem append (h : Balanced exit ms) (h' : Balanced exit ms') : Balanced exit (ms ++ ms') := by
  induction h with
  | nil exit => exact h'
  | leave i hrest ih => exact .leave i (ih h')
  | «for» hle htop hexit hbody hrest _ ih =>
    rw [List.cons_append, List.append_assoc, List.cons_append]
    exact .for hle htop hexit hbody (ih h')
  | «do» hle htop hexit hbody hrest _ ih =>
    rw [List.cons_append, List.append_assoc, List.cons_append]
    exact .do hle htop hexit hbody (ih h')

theorem addresses_le {size : Nat} (h : Balanced exit ms) (hms : ∀ p ∈ ms, p.1 < size)
    (hout : ∀ a ∈ exit, a ≤ size) : ∀ p ∈ ms, ∀ a ∈ p.2.addresses, a ≤ size := by
  induction h with
  | nil exit => exact nofun
  | leave i hrest ih =>
    obtain ⟨-, hms⟩ := List.forall_mem_cons.mp hms
    refine List.forall_mem_cons.mpr ⟨fun a ha => ?_, ih hms hout⟩
    rw [List.mem_singleton.mp ha]
    exact hout _ rfl
  | @«for» _ i j header _ _ hle htop hexit hbody hrest ihbody ihrest =>
    obtain ⟨hi, hms⟩ := List.forall_mem_cons.mp hms
    obtain ⟨hin, hms⟩ := List.forall_mem_append.mp hms
    obtain ⟨hj, hrest⟩ := List.forall_mem_cons.mp hms
    have hheader : ∀ a ∈ [header.body, header.exit], a ≤ size := by
      simp only [List.forall_mem_cons, htop, hexit]
      exact ⟨hi, hj, nofun⟩
    have hinner : ∀ a ∈ some header.exit, a ≤ size := by
      rintro a ⟨⟩
      exact hheader _ (by simp)
    refine List.forall_mem_cons.mpr ⟨hheader, List.forall_mem_append.mpr ⟨ihbody hin hinner, ?_⟩⟩
    exact List.forall_mem_cons.mpr ⟨hheader, ihrest hrest hout⟩
  | @«do» _ i j header _ _ hle htop hexit hbody hrest ihbody ihrest =>
    obtain ⟨hi, hms⟩ := List.forall_mem_cons.mp hms
    obtain ⟨hin, hms⟩ := List.forall_mem_append.mp hms
    obtain ⟨hj, hrest⟩ := List.forall_mem_cons.mp hms
    have hheader : ∀ a ∈ [header.top, header.exit], a ≤ size := by
      simp only [List.forall_mem_cons, htop, hexit]
      exact ⟨Nat.le_of_lt hi, hj, nofun⟩
    have hinner : ∀ a ∈ some header.exit, a ≤ size := by
      rintro a ⟨⟩
      exact hheader _ (by simp)
    refine List.forall_mem_cons.mpr ⟨hheader, List.forall_mem_append.mpr ⟨ihbody hin hinner, ?_⟩⟩
    exact List.forall_mem_cons.mpr ⟨hheader, ihrest hrest hout⟩

/-- What closes a counting loop carries the header of what opens it, and knows both places. -/
theorem opens_of_next (h : Balanced exit ms) {j : Address} {header : ForHeader Address}
    (hnext : (j, .next header) ∈ ms) :
    ∃ i, i ≤ j ∧ header.body = i + 1 ∧ header.exit = j + 1 ∧ (i, .for header) ∈ ms := by
  induction h with
  | nil => cases hnext
  | leave i hrest ih =>
    obtain ⟨i', hle, hbody, hexit, hfor⟩ := ih ((List.mem_cons.mp hnext).resolve_left nofun)
    exact ⟨i', hle, hbody, hexit, List.mem_cons_of_mem _ hfor⟩
  | @«for» _ i _ _ body rest hle htop hexit hbody hrest ihbody ihrest =>
    have hinside := (List.mem_cons.mp hnext).resolve_left nofun
    rcases List.mem_append.mp hinside with hin | hin
    · obtain ⟨i', hle, hbody, hexit, hfor⟩ := ihbody hin
      exact ⟨i', hle, hbody, hexit, List.mem_cons_of_mem _ (List.mem_append_left _ hfor)⟩
    · rcases List.mem_cons.mp hin with hclosing | hin
      · cases hclosing
        exact ⟨i, hle, htop, hexit, List.mem_cons_self⟩
      · obtain ⟨i', hle, hbody, hexit, hfor⟩ := ihrest hin
        exact ⟨i', hle, hbody, hexit,
          List.mem_cons_of_mem _ (List.mem_append_right _ (List.mem_cons_of_mem _ hfor))⟩
  | @«do» _ i _ _ body rest hle htop hexit hbody hrest ihbody ihrest =>
    have hinside := (List.mem_cons.mp hnext).resolve_left nofun
    rcases List.mem_append.mp hinside with hin | hin
    · obtain ⟨i', hle, hbody, hexit, hfor⟩ := ihbody hin
      exact ⟨i', hle, hbody, hexit, List.mem_cons_of_mem _ (List.mem_append_left _ hfor)⟩
    · obtain ⟨i', hle, hbody, hexit, hfor⟩ := ihrest ((List.mem_cons.mp hin).resolve_left nofun)
      exact ⟨i', hle, hbody, hexit,
        List.mem_cons_of_mem _ (List.mem_append_right _ (List.mem_cons_of_mem _ hfor))⟩

end Balanced

/-! ### Programs that are being read -/

/-- Marks with some loops still open: what was written outside of them, then for each of them its
opening and what was written in its body. -/
inductive Unclosed (exits : LoopId → Address) :
    List OpenLoop → List (Address × LoopMark Address) → Prop where
  | outer {ms : List (Address × LoopMark Address)} (h : Balanced none ms) : Unclosed exits [] ms
  | inFor {loops : List OpenLoop} {ms body : List (Address × LoopMark Address)}
    (h : Unclosed exits loops ms) (pos : Pos) {header : ForHeader LoopId} {i : Address}
    (htop : header.body = i + 1) (hbody : Balanced (some (exits header.exit)) body) :
    Unclosed exits (.for pos header :: loops) (ms ++ (i, .for (header.mapExit exits)) :: body)
  | inDo {loops : List OpenLoop} {ms body : List (Address × LoopMark Address)}
    (h : Unclosed exits loops ms) (pos : Pos) {header : DoHeader LoopId} {i : Address}
    (htop : header.top = i) (hbody : Balanced (some (exits header.exit)) body) :
    Unclosed exits (.do pos header :: loops) (ms ++ (i, .do (header.mapExit exits)) :: body)

namespace Unclosed

variable {exits : LoopId → Address} {loops : List OpenLoop}
  {ms ms' : List (Address × LoopMark Address)}

theorem append (h : Unclosed exits loops ms)
    (h' : Balanced (loops.head?.map fun loop => exits loop.exit) ms') :
    Unclosed exits loops (ms ++ ms') := by
  cases h with
  | outer h => exact .outer (h.append h')
  | inFor h pos htop hbody =>
    rw [List.append_assoc, List.cons_append]
    exact h.inFor pos htop (hbody.append h')
  | inDo h pos htop hbody =>
    rw [List.append_assoc, List.cons_append]
    exact h.inDo pos htop (hbody.append h')

theorem closeFor {pos : Pos} {header : ForHeader LoopId} {j : Address}
    (h : Unclosed exits (.for pos header :: loops) ms) (hexit : exits header.exit = j + 1)
    (hms : ∀ p ∈ ms, p.1 ≤ j) :
    Unclosed exits loops (ms ++ [(j, .next (header.mapExit exits))]) := by
  cases h with
  | inFor h _ htop hbody =>
    have hi := (List.forall_mem_cons.mp (List.forall_mem_append.mp hms).2).1
    rw [List.append_assoc, List.cons_append]
    exact h.append (.for hi htop hexit hbody (.nil _))

theorem closeDo {pos : Pos} {header : DoHeader LoopId} {j : Address}
    (h : Unclosed exits (.do pos header :: loops) ms) (hexit : exits header.exit = j + 1)
    (hms : ∀ p ∈ ms, p.1 ≤ j) :
    Unclosed exits loops (ms ++ [(j, .loop (header.mapExit exits))]) := by
  cases h with
  | inDo h _ htop hbody =>
    have hi := (List.forall_mem_cons.mp (List.forall_mem_append.mp hms).2).1
    rw [List.append_assoc, List.cons_append]
    exact h.append (.do hi htop hexit hbody (.nil _))

end Unclosed

namespace Shape

/-- What holds of the marks that were read all along. The exits of the open loops are not known yet,
so they may be any. -/
structure Bracketed (f : Shape) (ms : List (Address × LoopMark LoopId)) : Prop
    extends f.OwnExits where
  placed : ∀ p ∈ ms, p.1 ≤ f.statements.size
  unclosed : ∀ exits, f.Fits exits →
    Unclosed exits f.loops (ms.map fun p => (p.1, p.2.mapExit exits))

namespace Bracketed

variable {f f' : Shape} {ms : List (Address × LoopMark LoopId)}

theorem placed_concat (h : f.Bracketed ms) (mark : LoopMark LoopId) :
    ∀ p ∈ ms ++ [(f.statements.size, mark)], p.1 ≤ f.statements.size :=
  List.forall_mem_append.mpr ⟨h.placed, by simp⟩

theorem opens (h : f.Bracketed ms) (loop : OpenLoop) (hloop : loop.exit = f.exits.size)
    {mark : LoopMark LoopId}
    (hmark : ∀ exits ms, Unclosed exits f.loops ms →
      Unclosed exits (loop :: f.loops) (ms ++ [(f.statements.size, mark.mapExit exits)])) :
    Bracketed { f with loops := loop :: f.loops, exits := f.exits.push 0 }
      (ms ++ [(f.statements.size, mark)]) where
  toOwnExits := h.toOwnExits.opens loop hloop _
  placed := h.placed_concat mark
  unclosed := by
    intro exits hfits
    rw [List.map_append]
    exact hmark exits _ (h.unclosed exits (hfits.of_opened hloop))

theorem closes (h : f.Bracketed ms) {loop : OpenLoop} {outer : List OpenLoop}
    (hloops : f.loops = loop :: outer) {mark : LoopMark LoopId}
    (hmark : ∀ exits ms, Unclosed exits (loop :: outer) ms →
      exits loop.exit = f.statements.size + 1 → (∀ p ∈ ms, p.1 ≤ f.statements.size) →
      Unclosed exits outer (ms ++ [(f.statements.size, mark.mapExit exits)])) :
    Bracketed
      { f with
        loops := outer
        exits := f.exits.setIfInBounds loop.exit (f.statements.size + 1) }
      (ms ++ [(f.statements.size, mark)]) where
  toOwnExits := h.toOwnExits.closes hloops _ _
  placed := h.placed_concat mark
  unclosed := by
    intro exits hfits
    obtain ⟨hold, hexit⟩ := hfits.of_closed h.toOwnExits hloops
    have hunclosed := h.unclosed exits hold
    rw [hloops] at hunclosed
    rw [List.map_append]
    apply hmark exits _ hunclosed hexit
    intro p hp
    obtain ⟨q, hq, rfl⟩ := List.mem_map.mp hp
    exact h.placed q hq

theorem leaves (h : f.Bracketed ms) {exit : LoopId} (hexit : f.innermost = some exit) :
    f.Bracketed (ms ++ [(f.statements.size, .leave exit)]) where
  toOwnExits := h.toOwnExits
  placed := h.placed_concat _
  unclosed := by
    intro exits hfits
    rw [List.map_append]
    apply (h.unclosed exits hfits).append
    have hinner : (f.loops.head?.map fun loop => exits loop.exit) = some (exits exit) := by
      obtain ⟨loop, hloop, rfl⟩ := Option.map_eq_some_iff.mp hexit
      rw [hloop]
      rfl
    rw [hinner]
    exact .leave _ (.nil _)

/-- Reading a statement adds its marks: in branches, those of the first branch before those of the
second. -/
theorem reads {s : Stmt LoopId} (h : f.Bracketed ms) (hreads : f.Reads s f') :
    f'.Bracketed (ms ++ s.marks.map (f.statements.size, ·)) := by
  induction s generalizing f f' ms with
  | «for» pos header =>
    obtain ⟨hbody, hexit, rfl⟩ := hreads
    exact h.opens (.for pos header) hexit fun exits ms hms => hms.inFor pos hbody (.nil _)
  | next pos header =>
    obtain ⟨opening, outer, hloops, rfl⟩ := hreads
    exact h.closes hloops fun exits ms hms hexit hplaced => hms.closeFor hexit hplaced
  | «do» pos top header =>
    obtain ⟨htop, hexit, rfl⟩ := hreads
    exact h.opens (.do pos header) hexit fun exits ms hms => hms.inDo pos htop (.nil _)
  | loop pos bottom header =>
    obtain ⟨opening, outer, hloops, rfl⟩ := hreads
    exact h.closes hloops fun exits ms hms hexit hplaced => hms.closeDo hexit hplaced
  | leave pos exit =>
    obtain ⟨hinner, rfl⟩ := hreads
    exact h.leaves hinner
  | when pos condition taken ih => exact ih h hreads
  | choose pos condition taken otherwise ih ih' =>
    obtain ⟨between, htaken, hotherwise⟩ := hreads
    have hboth := ih' (ih h htaken) hotherwise
    rw [htaken.statements_eq, List.append_assoc, ← List.map_append] at hboth
    exact hboth
  | _ =>
    cases hreads
    change f.Bracketed (ms ++ [])
    rwa [List.append_nil]

theorem push (h : f.Bracketed ms) (s : Stmt LoopId) :
    Bracketed { f with statements := f.statements.push s } ms where
  toOwnExits := ⟨h.known, h.distinct⟩
  placed := by
    intro p hp
    rw [Array.size_push]
    exact Nat.le_succ_of_le (h.placed p hp)
  unclosed := h.unclosed

end Bracketed

def marks (f : Shape) : List (Address × LoopMark LoopId) :=
  marksFrom 0 f.statements.toList

end Shape

theorem Shape.Grows.bracketed {f g : Shape} (h : f.Grows g) (hf : f.Bracketed f.marks) :
    g.Bracketed g.marks := by
  induction h with
  | done f => exact hf
  | @add f f' g s hreads rest ih =>
    apply ih
    have hmarks : Shape.marks { f' with statements := f'.statements.push s } =
        f.marks ++ s.marks.map (f.statements.size, ·) := by
      rw [Shape.marks, Array.toList_push, marksFrom_concat, hreads.statements_eq, Nat.zero_add,
        Array.length_toList, Shape.marks]
    rw [hmarks]
    exact (hf.reads hreads).push s

theorem Shape.bracketed_empty : Bracketed ⟨#[], [], #[]⟩ [] where
  known := nofun
  distinct := .nil
  placed := nofun
  unclosed := fun _ _ => .outer (.nil _)

theorem balanced_of_parse {source : String} {code : Code} (h : parse source = .ok code) :
    Balanced none code.marks := by
  obtain ⟨d, -, hgrows, hfinish⟩ := draft_of_parse h
  obtain ⟨hloops, hcode⟩ := d.finish_ok hfinish
  have hbracketed := hgrows.bracketed Shape.bracketed_empty
  have hunclosed := hbracketed.unclosed (d.exits.getD · 0) fun _ _ _ => rfl
  rw [Code.marks, hcode, Array.toList_map, marksFrom_mapExit]
  change Unclosed _ d.loops _ at hunclosed
  rw [hloops] at hunclosed
  cases hunclosed with
  | outer hbalanced => exact hbalanced

theorem addresses_le_of_parse {source : String} {code : Code} (h : parse source = .ok code) :
    ∀ p ∈ code.marks, ∀ a ∈ p.2.addresses, a ≤ code.statements.size := by
  apply (balanced_of_parse h).addresses_le
  · intro p hp
    have hlt := mem_marksFrom hp
    rwa [Nat.zero_add, Array.length_toList] at hlt
  · exact nofun

/-- The loops of a program that can be read are brackets, and all their addresses are addresses of
the program. -/
theorem loops_match_like_brackets {source : String} {code : Code} (h : parse source = .ok code) :
    Balanced none code.marks ∧ ∀ p ∈ code.marks, ∀ a ∈ p.2.addresses, a ≤ code.statements.size :=
  ⟨balanced_of_parse h, addresses_le_of_parse h⟩

/-- One branch of a conditional opens a loop and the other one closes it; later a branch closes the
loop around it and the other branch opens the next one. -/
def branchLoops : Code where
  statements :=
    let counted : ForHeader Address := ⟨"i", .var ⟨1, 17⟩ "b", .var ⟨1, 22⟩ "c", none, 1, 1⟩
    #[.choose ⟨1, 1⟩ (.var ⟨1, 4⟩ "a") (.for ⟨1, 11⟩ counted) (.next ⟨1, 29⟩ counted),
      .do ⟨2, 1⟩ none ⟨1, 4⟩,
      .when ⟨2, 5⟩ (.var ⟨2, 8⟩ "b") (.leave ⟨2, 15⟩ 4),
      .choose ⟨3, 1⟩ (.var ⟨3, 4⟩ "c") (.loop ⟨3, 11⟩ none ⟨1, 4⟩) (.do ⟨3, 21⟩ none ⟨3, 6⟩),
      .leave ⟨4, 1⟩ 6,
      .loop ⟨4, 8⟩ none ⟨3, 6⟩]
  labels := []
  data := []

theorem loops_match_like_brackets_branchLoops :
    ∃ source, parse source = .ok branchLoops ∧ Balanced none branchLoops.marks ∧
      ∀ p ∈ branchLoops.marks, ∀ a ∈ p.2.addresses, a ≤ 6 := by
  have hparse : parse
      "if a then for i=b to c else next\ndo: if b then break\nif c then loop else do\nbreak: loop" =
      .ok branchLoops := by decide +kernel
  exact ⟨_, hparse, loops_match_like_brackets hparse⟩

end LineBasic
