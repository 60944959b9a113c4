import Mathlib.Data.List.Basic
import LineBasic.Proofs.Loops
import LineBasic.Proofs.SoundReading

/-!
# Reading loops

A program that is read is the layout of a nest. While it is being read, its draft is a nest with one
open end: what was read outside of all loops, then for each open loop its opening and what was read
of its body. The exits of the open loops are not known yet, so the invariant holds for whatever
addresses they get in the end.
-/

namespace LineBasic

set_option autoImplicit false

/-- Every `break` in a statement leaves this loop; without a loop there is none. -/
def Stmt.Leaves {χ : Type} (loop : Option χ) : Stmt χ → Prop
  | leave _ exit => loop = some exit
  | when _ _ taken => taken.Leaves loop
  | choose _ _ taken otherwise => taken.Leaves loop ∧ otherwise.Leaves loop
  | _ => True

theorem Shape.Reads.of_loopless {f f' : Shape} {s : Stmt LoopId} (h : f.Reads s f')
    (hs : s.loopless) : s.Leaves f.innermost ∧ f' = f := by
  induction s generalizing f f' with
  | «for» => cases hs
  | next => cases hs
  | «do» => cases hs
  | loop => cases hs
  | when pos condition taken ih => exact ih h hs
  | choose pos condition taken otherwise ih ih' =>
    obtain ⟨between, h₁, h₂⟩ := h
    obtain ⟨hs₁, hs₂⟩ := Bool.and_eq_true_iff.mp hs
    obtain ⟨hleaves, rfl⟩ := ih h₁ hs₁
    exact ⟨⟨hleaves, (ih' h₂ hs₂).1⟩, (ih' h₂ hs₂).2⟩
  | leave => exact h
  | _ => exact ⟨trivial, h⟩

/-! ### Nests with an open end -/

namespace Stmt

theorem loopless_mapExit {χ υ : Type} (f : χ → υ) (s : Stmt χ) :
    (s.mapExit f).loopless = s.loopless := by
  induction s with
  | when pos condition taken ih => exact ih
  | choose pos condition taken otherwise ih₁ ih₂ => simp only [mapExit, loopless, ih₁, ih₂]
  | _ => rfl

theorem standsAlone_mapExit {χ υ : Type} (f : χ → υ) (s : Stmt χ) :
    (s.mapExit f).standsAlone = s.standsAlone := by
  cases s with
  | when pos condition taken => exact loopless_mapExit f _
  | choose pos condition taken otherwise => exact loopless_mapExit f (.choose pos condition _ _)
  | _ => rfl

theorem breaks_mapExit {χ υ : Type} (f : χ → υ) (s : Stmt χ) :
    (s.mapExit f).breaks = s.breaks := by
  induction s with
  | when pos condition taken ih => exact ih
  | choose pos condition taken otherwise ih₁ ih₂ => simp only [mapExit, breaks, ih₁, ih₂]
  | _ => rfl

theorem Leaves.not_breaks {χ : Type} {s : Stmt χ} (h : s.Leaves none) : s.breaks = false := by
  induction s with
  | when pos condition taken ih => exact ih h
  | choose pos condition taken otherwise ih₁ ih₂ => simp only [breaks, ih₁ h.1, ih₂ h.2, Bool.or_self]
  | leave pos exit => cases h
  | _ => rfl

/-- A statement without loops is the same at every exit that its `break`s can have. -/
theorem Leaves.mapExit_eq {χ υ : Type} {s : Stmt χ} {loop : Option χ} (h : s.Leaves loop)
    (hs : s.loopless) {f : χ → υ} {exit : υ} (hexit : ∀ x, loop = some x → f x = exit) :
    s.mapExit f = (s.mapExit fun _ => ()).mapExit fun _ => exit := by
  induction s with
  | when pos condition taken ih => simp only [mapExit, ih h hs]
  | choose pos condition taken otherwise ih₁ ih₂ =>
    obtain ⟨hs₁, hs₂⟩ := Bool.and_eq_true_iff.mp hs
    simp only [mapExit, ih₁ h.1 hs₁, ih₂ h.2 hs₂]
  | leave pos x => rw [mapExit, hexit x h]; rfl
  | «for» => cases hs
  | next => cases hs
  | «do» => cases hs
  | loop => cases hs
  | _ => rfl

end Stmt

/-- The address after the innermost loop; outside of loops none is needed. -/
def exitOf (exits : LoopId → Address) : List OpenLoop → Address
  | [] => 0
  | loop :: _ => exits loop.exit

/-- Statements read so far are a nest with one open end: what stands before all open loops, then
each open loop's opening and a part of its body. -/
inductive Grown (exits : LoopId → Address) : List OpenLoop → List (Stmt Address) → Prop where
  | outer (t : Nest) (ht : t.proper false) : Grown exits [] (t.layout 0 0)
  | inFor {loops : List OpenLoop} {ss : List (Stmt Address)} (h : Grown exits loops ss) (pos : Pos)
    (header : ForHeader LoopId) (hbody : header.body = ss.length + 1) (t : Nest)
    (ht : t.proper true) :
    Grown exits (.for pos header :: loops)
      (ss ++ .for pos (header.mapExit exits) :: t.layout (ss.length + 1) (exits header.exit))
  | inDo {loops : List OpenLoop} {ss : List (Stmt Address)} (h : Grown exits loops ss) (pos : Pos)
    (top : Option Guard) (header : DoHeader LoopId) (htop : header.top = ss.length) (t : Nest)
    (ht : t.proper true) :
    Grown exits (.do pos header :: loops)
      (ss ++ .do pos top (header.mapExit exits) :: t.layout (ss.length + 1) (exits header.exit))

namespace Grown

variable {exits : LoopId → Address} {loops : List OpenLoop} {ss : List (Stmt Address)}

theorem layout_extend (ss : List (Stmt Address)) (s : Stmt Address) (t u : Nest) (exit : Address) :
    (ss ++ s :: t.layout (ss.length + 1) exit) ++
        u.layout (ss ++ s :: t.layout (ss.length + 1) exit).length exit =
      ss ++ s :: (t.append u).layout (ss.length + 1) exit := by
  have hlength : (ss ++ s :: t.layout (ss.length + 1) exit).length = ss.length + 1 + t.size := by
    rw [List.length_append, List.length_cons, Nest.length_layout, Nat.add_comm t.size, Nat.add_assoc]
  rw [hlength, Nest.layout_append, List.append_assoc, List.cons_append]

theorem extend (h : Grown exits loops ss) {u : Nest} (hu : u.proper (!loops.isEmpty)) :
    Grown exits loops (ss ++ u.layout ss.length (exitOf exits loops)) := by
  have hproper {t : Nest} {inLoop : Bool} (ht : t.proper inLoop) (hu : u.proper inLoop) :
      (t.append u).proper inLoop := by
    rw [Nest.proper_append, ht, hu]
    rfl
  cases h with
  | outer t ht =>
    rw [exitOf, Nest.length_layout, ← Nat.zero_add t.size, ← Nest.layout_append]
    exact .outer _ (hproper ht hu)
  | inFor h pos header hbody t ht =>
    rw [exitOf, OpenLoop.exit, layout_extend]
    exact h.inFor pos header hbody _ (hproper ht hu)
  | inDo h pos top header htop t ht =>
    rw [exitOf, OpenLoop.exit, layout_extend]
    exact h.inDo pos top header htop _ (hproper ht hu)

theorem closeFor {opening : Pos} {header : ForHeader LoopId}
    (h : Grown exits (.for opening header :: loops) ss) (hexit : exits header.exit = ss.length + 1)
    (closing : Pos) : Grown exits loops (ss ++ [.next closing (header.mapExit exits)]) := by
  cases h with
  | @inFor _ ss h _ _ hbody t ht =>
    rw [List.length_append, List.length_cons, Nest.length_layout] at hexit
    have hplace : ss.length + (t.size + 1) + 1 = ss.length + t.size + 2 := by omega
    have hextend := h.extend
      (u := .for opening header.var header.start header.limit header.step t closing .done)
      (by rw [Nest.proper, ht]; rfl)
    rw [Nest.layout, Nest.layout] at hextend
    have hheader : header.mapExit exits = ⟨header.var, header.start, header.limit, header.step,
        ss.length + 1, ss.length + t.size + 2⟩ := by
      rw [ForHeader.mapExit, hbody, hexit, hplace]
    rw [hheader, hexit, hplace, List.append_assoc, List.cons_append]
    exact hextend

theorem closeDo {opening : Pos} {header : DoHeader LoopId}
    (h : Grown exits (.do opening header :: loops) ss) (hexit : exits header.exit = ss.length + 1)
    (closing : Pos) (bottom : Option Guard) :
    Grown exits loops (ss ++ [.loop closing bottom (header.mapExit exits)]) := by
  cases h with
  | @inDo _ ss h _ top _ htop t ht =>
    rw [List.length_append, List.length_cons, Nest.length_layout] at hexit
    have hplace : ss.length + (t.size + 1) + 1 = ss.length + t.size + 2 := by omega
    have hextend := h.extend (u := .do opening top t closing bottom .done)
      (by rw [Nest.proper, ht]; rfl)
    rw [Nest.layout, Nest.layout] at hextend
    have hheader : header.mapExit exits = ⟨ss.length, ss.length + t.size + 2⟩ := by
      rw [DoHeader.mapExit, htop, hexit, hplace]
    rw [hheader, hexit, hplace, List.append_assoc, List.cons_append]
    exact hextend

end Grown

namespace Shape

/-- Addresses of the places after all loops, which for the closed ones are known. -/
def Fits (f : Shape) (exits : LoopId → Address) : Prop :=
  ∀ id < f.exits.size, (∀ loop ∈ f.loops, loop.exit ≠ id) → exits id = f.exits.getD id 0

/-- Each open loop has a number of its own. -/
structure OwnExits (f : Shape) : Prop where
  known : ∀ loop ∈ f.loops, loop.exit < f.exits.size
  distinct : f.loops.Pairwise fun loop other => loop.exit ≠ other.exit

theorem OwnExits.opens {f : Shape} (h : f.OwnExits) (loop : OpenLoop)
    (hloop : loop.exit = f.exits.size) (statements : Array (Stmt LoopId)) :
    OwnExits ⟨statements, loop :: f.loops, f.exits.push 0⟩ where
  known := by
    intro other hother
    rw [Array.size_push]
    rcases List.mem_cons.mp hother with rfl | hother
    · exact Nat.lt_succ_of_le (Nat.le_of_eq hloop)
    · exact Nat.lt_succ_of_lt (h.known other hother)
  distinct := by
    refine List.pairwise_cons.mpr ⟨fun other hother => ?_, h.distinct⟩
    rw [hloop]
    exact (Nat.ne_of_lt (h.known other hother)).symm

theorem OwnExits.closes {f : Shape} (h : f.OwnExits) {loop : OpenLoop} {outer : List OpenLoop}
    (hloops : f.loops = loop :: outer) (statements : Array (Stmt LoopId)) (exit : Address) :
    OwnExits ⟨statements, outer, f.exits.setIfInBounds loop.exit exit⟩ where
  known := by
    intro other hother
    rw [Array.size_setIfInBounds]
    exact h.known other (hloops ▸ List.mem_cons_of_mem _ hother)
  distinct := (List.pairwise_cons.mp (hloops ▸ h.distinct)).2

theorem Fits.of_opened {f : Shape} {exits : LoopId → Address} {loop : OpenLoop}
    {statements : Array (Stmt LoopId)} (hloop : loop.exit = f.exits.size)
    (h : Fits ⟨statements, loop :: f.loops, f.exits.push 0⟩ exits) : f.Fits exits := by
  intro id hid hclosed
  have hopen : ∀ other ∈ loop :: f.loops, other.exit ≠ id :=
    List.forall_mem_cons.mpr ⟨hloop ▸ (Nat.ne_of_lt hid).symm, hclosed⟩
  have hsame : (f.exits.push 0).getD id 0 = f.exits.getD id 0 := by
    simp [Array.getD_eq_getD_getElem?, Array.getElem?_push, Nat.ne_of_lt hid]
  rw [← hsame]
  exact h id (by rw [Array.size_push]; omega) hopen

theorem Fits.of_closed {f : Shape} {exits : LoopId → Address} {loop : OpenLoop}
    {outer : List OpenLoop} {statements : Array (Stmt LoopId)} {exit : Address} (hf : f.OwnExits)
    (hloops : f.loops = loop :: outer)
    (h : Fits ⟨statements, outer, f.exits.setIfInBounds loop.exit exit⟩ exits) :
    f.Fits exits ∧ exits loop.exit = exit := by
  have hknown := hf.known
  have hdistinct := hf.distinct
  rw [hloops] at hknown hdistinct
  constructor
  · intro id hid hclosed
    rw [hloops] at hclosed
    obtain ⟨hne, hclosed⟩ := List.forall_mem_cons.mp hclosed
    have hsame : (f.exits.setIfInBounds loop.exit exit).getD id 0 = f.exits.getD id 0 := by
      simp [Array.getD_eq_getD_getElem?, Array.getElem?_setIfInBounds_ne hne]
    rw [← hsame]
    exact h id (by rwa [Array.size_setIfInBounds]) hclosed
  · have hnew := (List.forall_mem_cons.mp hknown).1
    have hothers := (List.pairwise_cons.mp hdistinct).1
    rw [h loop.exit (by rwa [Array.size_setIfInBounds]) fun other hother =>
      (hothers other hother).symm]
    simp [Array.getD_eq_getD_getElem?, hnew]

/-- What holds of the statements and loops of a draft all along. -/
structure Nested (f : Shape) : Prop extends f.OwnExits where
  grown : ∀ exits, f.Fits exits → Grown exits f.loops (f.statements.toList.map (·.mapExit exits))

namespace Nested

variable {f : Shape}

theorem opens (h : f.Nested) (loop : OpenLoop) (hloop : loop.exit = f.exits.size)
    {s : Stmt LoopId}
    (hs : ∀ exits ss, ss.length = f.statements.size → Grown exits f.loops ss →
      Grown exits (loop :: f.loops) (ss ++ [s.mapExit exits])) :
    Nested ⟨f.statements.push s, loop :: f.loops, f.exits.push 0⟩ where
  toOwnExits := h.toOwnExits.opens loop hloop _
  grown := by
    intro exits hfits
    rw [Array.toList_push, List.map_append]
    exact hs exits _ (by simp) (h.grown exits (hfits.of_opened hloop))

theorem closes (h : f.Nested) {loop : OpenLoop} {outer : List OpenLoop}
    (hloops : f.loops = loop :: outer) {s : Stmt LoopId}
    (hs : ∀ exits ss, Grown exits (loop :: outer) ss → exits loop.exit = ss.length + 1 →
      Grown exits outer (ss ++ [s.mapExit exits])) :
    Nested ⟨f.statements.push s, outer,
      f.exits.setIfInBounds loop.exit (f.statements.size + 1)⟩ where
  toOwnExits := h.toOwnExits.closes hloops _ _
  grown := by
    intro exits hfits
    obtain ⟨hold, hexit⟩ := hfits.of_closed h.toOwnExits hloops
    have hgrown := h.grown exits hold
    rw [hloops] at hgrown
    rw [Array.toList_push, List.map_append]
    exact hs exits _ hgrown (by rw [hexit, List.length_map, Array.length_toList])

theorem adds (h : f.Nested) {s : Stmt LoopId} (hs : s.loopless) (hleaves : s.Leaves f.innermost) :
    Nested { f with statements := f.statements.push s } where
  known := h.known
  distinct := h.distinct
  grown := by
    intro exits hfits
    have hproper : (Nest.plain (s.mapExit fun _ => ()) .done).proper (!f.loops.isEmpty) := by
      rw [Nest.proper, Stmt.loopless_mapExit, Stmt.breaks_mapExit, hs]
      cases hloops : f.loops with
      | nil =>
        rw [Shape.innermost, hloops] at hleaves
        rw [hleaves.not_breaks]
        rfl
      | cons loop outer => rfl
    have hextend := (h.grown exits hfits).extend hproper
    have hexit : ∀ id, f.innermost = some id → exits id = exitOf exits f.loops := by
      intro id hid
      cases hloops : f.loops with
      | nil =>
        rw [Shape.innermost, hloops] at hid
        cases hid
      | cons loop outer =>
        rw [Shape.innermost, hloops] at hid
        cases hid
        rfl
    rw [Nest.layout, Nest.layout, ← hleaves.mapExit_eq hs hexit] at hextend
    rw [Array.toList_push, List.map_append]
    exact hextend

/-- A statement that is read and added keeps the draft a nest. -/
theorem reads {f' : Shape} {s : Stmt LoopId} (h : f.Nested) (hs : s.standsAlone)
    (hreads : f.Reads s f') : Nested { f' with statements := f'.statements.push s } := by
  cases s with
  | «for» pos header =>
    obtain ⟨hbody, hexit, rfl⟩ := hreads
    refine h.opens (.for pos header) hexit fun exits ss hlength hgrown => ?_
    exact hgrown.inFor pos header (by rw [hbody, hlength]) .done rfl
  | next pos header =>
    obtain ⟨opening, outer, hloops, rfl⟩ := hreads
    exact h.closes hloops fun exits ss hgrown hexit => hgrown.closeFor hexit pos
  | «do» pos top header =>
    obtain ⟨htop, hexit, rfl⟩ := hreads
    refine h.opens (.do pos header) hexit fun exits ss hlength hgrown => ?_
    exact hgrown.inDo pos top header (by rw [htop, hlength]) .done rfl
  | loop pos bottom header =>
    obtain ⟨opening, outer, hloops, rfl⟩ := hreads
    exact h.closes hloops fun exits ss hgrown hexit => hgrown.closeDo hexit pos bottom
  | _ =>
    obtain ⟨hleaves, rfl⟩ := hreads.of_loopless hs
    exact h.adds hs hleaves

end Nested

end Shape

/-! ### Whole programs -/

namespace Shape

theorem nested_empty : Nested ⟨#[], [], #[]⟩ where
  known := nofun
  distinct := .nil
  grown := fun _ _ => .outer .done rfl

theorem Grows.statements_prefix {f g : Shape} (h : f.Grows g) :
    f.statements.toList <+: g.statements.toList := by
  induction h with
  | done f => exact List.prefix_rfl
  | add hreads rest ih =>
    rw [Array.toList_push, hreads.statements_eq] at ih
    exact (List.prefix_append _ _).trans ih

/-- What grows from a nest is a nest, if no loop is opened or closed in a branch. -/
theorem Grows.nested {f g : Shape} (h : f.Grows g) (halone : ∀ s ∈ g.statements, s.standsAlone)
    (hf : f.Nested) : g.Nested := by
  induction h with
  | done f => exact hf
  | @add f f' g s hreads rest ih =>
    have hs : s ∈ g.statements.toList := rest.statements_prefix.subset (by simp)
    exact ih halone (hf.reads (halone s (Array.mem_toList_iff.mp hs)) hreads)

end Shape

/-- A program in which loops are opened and closed by statements of their own is the layout of a
nest. -/
theorem exists_nest_of_parse {source : String} {code : Code} (h : parse source = .ok code)
    (halone : ∀ s ∈ code.statements, s.standsAlone) :
    ∃ t : Nest, t.proper false ∧ code.statements.toList = t.layout 0 0 := by
  obtain ⟨d, -, hgrows, hfinish⟩ := draft_of_parse h
  obtain ⟨hloops, hcode⟩ := d.finish_ok hfinish
  have halone' : ∀ s ∈ d.statements, s.standsAlone := by
    intro s hs
    rw [← Stmt.standsAlone_mapExit (d.exits.getD · 0)]
    refine halone _ ?_
    rw [hcode]
    exact Array.mem_map_of_mem hs
  have hgrown := (hgrows.nested halone' Shape.nested_empty).grown (d.exits.getD · 0) fun _ _ _ => rfl
  rw [hcode, Array.toList_map]
  change Grown _ d.loops _ at hgrown
  rw [hloops] at hgrown
  generalize hss : List.map _ d.shape.statements.toList = ss at hgrown
  cases hgrown with
  | outer t ht => exact ⟨t, ht, hss⟩

namespace Machine

/-- A program with loops, run statement by statement, does what its loops say: it is the layout of a
nest, and it comes to an end if and only if that nest does, with the same effects. -/
theorem flat_loops_structured {source : String} {code : Code} (hparse : parse source = .ok code)
    (halone : ∀ s ∈ code.statements, s.standsAlone) (hdirect : ∀ s ∈ code.statements, s.direct) :
    (∃ t : Nest, t.proper false ∧ code.statements.toList = t.layout 0 0) ∧
      ∀ t : Nest, t.proper false → code.statements.toList = t.layout 0 0 →
        ∀ (block : Block) (m m' : Machine), block.statements = code.statements →
          m.code = some block → m.pc = 0 → m.OwnNames →
          ((∃ final, m.Finishes final ∧ final.goTo 0 = m') ↔
            ∃ final, t.Completes block m final ∧ final.goTo 0 = m') := by
  refine ⟨exists_nest_of_parse hparse halone, ?_⟩
  intro t hproper hlayout block m m' hblock hcode hpc hnames
  refine finishes_iff_completes hproper ?_ ?_ ⟨hcode, hnames⟩ hpc m'
  · rw [hblock, hlayout]
  · rwa [hblock]

/-- A counting loop inside of a guarded one, with a `break` in a branch. -/
def breakOut : Nest :=
  .do ⟨1, 1⟩ (some (.until (.var ⟨1, 10⟩ "a")))
    (.for ⟨2, 1⟩ "i" (.var ⟨2, 9⟩ "b") (.var ⟨2, 14⟩ "c") none
      (.plain (.when ⟨3, 1⟩ (.binary ⟨3, 6⟩ .equal (.var ⟨3, 4⟩ "i") (.var ⟨3, 8⟩ "d"))
        (.leave ⟨3, 15⟩ ())) .done) ⟨4, 1⟩
      (.plain (.assign ⟨5, 1⟩ "a" (.var ⟨5, 5⟩ "e")) .done))
    ⟨6, 1⟩ none .done

/-- The counting loop makes its first pass, and is left in the second one. -/
def breakingOut (block : Block) : Machine :=
  let m := (new {} (.ofSeed 7)).store "a" (.bool false)
  let m := (m.store "b" (.number (Float.ofNat 1))).store "c" (.number (Float.ofNat 3))
  let m := (m.store "d" (.number (Float.ofNat 2))).store "e" (.bool true)
  m.run block 0

theorem flat_loops_structured_breakOut :
    let source := "do until a\nfor i = b to c\nif i = d then break\nnext\na = e\nloop"
    let code : Code := ⟨(breakOut.layout 0 0).toArray, [], []⟩
    let block : Block := ⟨0, code.statements, source, none⟩
    let m := breakingOut block
    parse source = .ok code ∧ (∀ s ∈ code.statements, s.standsAlone) ∧
      (∀ s ∈ code.statements, s.direct) ∧ breakOut.proper false ∧ m.OwnNames ∧
      (∀ m', (∃ final, m.Finishes final ∧ final.goTo 0 = m') ↔
        ∃ final, breakOut.Completes block m final ∧ final.goTo 0 = m') ∧
      ∃ final, m.Finishes final ∧ final.pending = [] ∧ final.fetch "a" = some (.bool true) ∧
        final.fetch "i" = some (.number (Float.ofNat 2)) := by
  intro source code block m
  have hparse : parse source = .ok code := by decide +kernel
  have halone : ∀ s ∈ code.statements, s.standsAlone := by decide
  have hdirect : ∀ s ∈ code.statements, s.direct := by decide
  have hnames : m.OwnNames :=
    (((((ownNames_new {} (.ofSeed 7)).store _ _).store _ _).store _ _).store _ _ |>.store _ _).run _ _
  refine ⟨hparse, halone, hdirect, rfl, hnames, fun m' => ?_, turn^[9] m, ⟨9, .of_iterate ?_, ?_⟩, ?_⟩
  · exact (flat_loops_structured hparse halone hdirect).2 breakOut rfl rfl block m m' rfl rfl rfl hnames
  · decide +kernel
  · decide +kernel
  · decide +kernel

end Machine

end LineBasic
