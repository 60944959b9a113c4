import LineBasic.Machine
import LineBasic.Proofs.LabelTables
import LineBasic.Proofs.Renaming

/-!
# Block numbers

Every source that is read becomes a block with a number of its own, so what a machine has read before
shows in the numbers of its blocks. Machines are compared with these numbers or up to them, and
either way in the same manner: all that matters is how blocks and tables of labels correspond.
-/

namespace LineBasic

set_option autoImplicit false

/-! ### Blocks and places -/

/-- The same block under another number, entered from the same place. -/
inductive Block.Renumbered : Block → Block → Prop where
  | root (id id' : Nat) (statements : Array (Stmt Address)) (source : String) :
    Renumbered ⟨id, statements, source, none⟩ ⟨id', statements, source, none⟩
  | line (id id' : Nat) (statements : Array (Stmt Address)) (source : String) (addr : Address)
    {block block' : Block} (h : Renumbered block block') :
    Renumbered ⟨id, statements, source, some ⟨block, addr⟩⟩
      ⟨id', statements, source, some ⟨block', addr⟩⟩

/-- The same place in blocks that correspond. -/
structure Frame.Rel (R : Block → Block → Prop) (f f' : Frame) : Prop where
  block : R f.block f'.block
  addr : f.addr = f'.addr

namespace Block.Renumbered

variable {block block' : Block}

theorem statements_eq (h : block.Renumbered block') : block'.statements = block.statements := by
  cases h <;> rfl

theorem source_eq (h : block.Renumbered block') : block'.source = block.source := by
  cases h <;> rfl

theorem parent (h : block.Renumbered block') :
    Option.Rel (Frame.Rel Renumbered) block.parent block'.parent := by
  cases h with
  | root => exact .none
  | line _ _ _ _ _ h => exact .some ⟨h, rfl⟩

theorem of_parent {parent parent' : Option Frame}
    (h : Option.Rel (Frame.Rel Renumbered) parent parent') (id id' : Nat)
    (statements : Array (Stmt Address)) (source : String) :
    Renumbered ⟨id, statements, source, parent⟩ ⟨id', statements, source, parent'⟩ := by
  cases h with
  | none => exact .root id id' statements source
  | @some f f' h =>
    cases f
    cases f'
    cases h.addr
    exact .line id id' statements source _ h.block

theorem refl : (block : Block) → Renumbered block block
  | ⟨id, statements, source, none⟩ => .root id id statements source
  | ⟨id, statements, source, some ⟨block, addr⟩⟩ =>
    .line id id statements source addr (refl block)

end Block.Renumbered

/-- Stacks of related items. -/
structure BoundedStack.Rel {α β : Type} (R : α → β → Prop) (s : BoundedStack α)
    (s' : BoundedStack β) : Prop where
  limit : s'.limit = s.limit
  overflow : s'.overflow = s.overflow
  items : List.Forall₂ R s.items.toList s'.items.toList

namespace BoundedStack.Rel

variable {α β : Type} {R : α → β → Prop} {s : BoundedStack α} {s' : BoundedStack β}
  (h : Rel R s s')
include h

theorem overflow?_eq : s'.overflow? = s.overflow? := by
  have hsize : s'.size = s.size := h.items.length_eq.symm
  rw [BoundedStack.overflow?, BoundedStack.overflow?, hsize, h.limit, h.overflow]

theorem clear : Rel R s.clear s'.clear :=
  ⟨h.limit, h.overflow, .nil⟩

theorem add {a : α} {b : β} (hab : R a b) : Rel R (s.add a) (s'.add b) := by
  refine ⟨h.limit, h.overflow, ?_⟩
  change List.Forall₂ R (s.items.push a).toList (s'.items.push b).toList
  rw [Array.toList_push, Array.toList_push]
  exact List.rel_append h.items (.cons hab .nil)

theorem top? : Option.Rel R s.top? s'.top? := by
  have hlast (items : List α) (items' : List β) (hitems : List.Forall₂ R items items') :
      Option.Rel R items.getLast? items'.getLast? := by
    have hlength := hitems.length_eq
    rw [List.getLast?_eq_getElem?, List.getLast?_eq_getElem?, ← hlength]
    exact forall₂_getElem? hitems _
  rw [BoundedStack.top?, BoundedStack.top?, ← Array.getLast?_toList, ← Array.getLast?_toList]
  exact hlast _ _ h.items

theorem pop : Rel R s.pop s'.pop := by
  refine ⟨h.limit, h.overflow, ?_⟩
  change List.Forall₂ R s.items.pop.toList s'.items.pop.toList
  rw [Array.toList_pop, Array.toList_pop, List.dropLast_eq_take, List.dropLast_eq_take,
    h.items.length_eq]
  exact List.forall₂_take _ h.items

end BoundedStack.Rel

/-! ### Tables of labels -/

/-- Tables with the same labels, at the same places but for the numbers of their blocks. -/
structure Program.Renumbered (p p' : Program) : Prop where
  tight : p.Tight
  tight_right : p'.Tight
  labels : ∀ name, Option.Rel (Frame.Rel Block.Renumbered) (p.label? name) (p'.label? name)

/-- The program after a block was read, which takes the next number. -/
def Program.extend (p : Program) (statements : Array (Stmt Address)) (source : String)
    (parent : Option Frame) (labels : List (String × Address)) : Program :=
  ({ p with nextId := p.nextId + 1 }).addLabels ⟨p.nextId, statements, source, parent⟩ labels

namespace Program.Renumbered

theorem of_empty {nextId nextId' : Nat} :
    Renumbered { nextId := nextId } { nextId := nextId' } := by
  refine ⟨tight_of_empty, tight_of_empty, fun name => ?_⟩
  rw [label?_empty, label?_empty]
  exact .none

variable {p p' : Program}

theorem clear (_ : p.Renumbered p') : Renumbered p.clear p'.clear :=
  of_empty

theorem extend {parent parent' : Option Frame} (h : p.Renumbered p')
    (hparent : Option.Rel (Frame.Rel Block.Renumbered) parent parent')
    (statements : Array (Stmt Address)) (source : String) (labels : List (String × Address)) :
    Renumbered (p.extend statements source parent labels)
      (p'.extend statements source parent' labels) := by
  refine ⟨h.tight.advance.addLabels (Nat.lt_succ_self _),
    h.tight_right.advance.addLabels (Nat.lt_succ_self _), fun name => ?_⟩
  unfold Program.extend
  rw [h.tight.advance.label?_addLabels h.tight.fresh,
    h.tight_right.advance.label?_addLabels h.tight_right.fresh]
  cases labels.reverse.find? (·.1 = name) with
  | some l => exact .some ⟨.of_parent hparent _ _ statements source, rfl⟩
  | none => exact h.labels name

end Program.Renumbered

/-! ### Ways to compare -/

/-- A way to compare what machines have read: their blocks and their tables of labels. -/
structure Numbering where
  block : Block → Block → Prop
  program : Program → Program → Prop
  refl : ∀ b, block b b
  statements_eq : ∀ {b b'}, block b b' → b'.statements = b.statements
  source_eq : ∀ {b b'}, block b b' → b'.source = b.source
  parent : ∀ {b b'}, block b b' → Option.Rel (Frame.Rel block) b.parent b'.parent
  label? : ∀ {p p'}, program p p' → ∀ name,
    Option.Rel (Frame.Rel block) (p.label? name) (p'.label? name)
  clear : ∀ {p p'}, program p p' → program p.clear p'.clear
  /-- Blocks with the same code correspond if the machines have read the same so far. -/
  read : ∀ {p p' parent parent'}, program p p' → Option.Rel (Frame.Rel block) parent parent' →
    ∀ statements source, block ⟨p.nextId, statements, source, parent⟩
      ⟨p'.nextId, statements, source, parent'⟩
  extend : ∀ {p p' parent parent'}, program p p' → Option.Rel (Frame.Rel block) parent parent' →
    ∀ statements source labels, program (p.extend statements source parent labels)
      (p'.extend statements source parent' labels)

namespace Numbering

section Exact

variable {b b' : Block} {p p' : Program}

theorem optionRel_frame (x : Option Frame) : Option.Rel (Frame.Rel Eq) x x := by
  cases x with
  | none => exact .none
  | some => exact .some ⟨rfl, rfl⟩

theorem eq_of_optionRel {x y : Option Frame} (h : Option.Rel (Frame.Rel Eq) x y) : x = y := by
  cases h with
  | none => rfl
  | @some f f' h =>
    cases f
    cases f'
    cases h.block
    cases h.addr
    rfl

theorem statements_eq_of_eq (h : b = b') : b'.statements = b.statements := by
  rw [h]

theorem source_eq_of_eq (h : b = b') : b'.source = b.source := by
  rw [h]

theorem parent_of_eq (h : b = b') : Option.Rel (Frame.Rel Eq) b.parent b'.parent := by
  rw [h]
  exact optionRel_frame _

theorem label?_of_eq (h : p = p') (name : String) :
    Option.Rel (Frame.Rel Eq) (p.label? name) (p'.label? name) := by
  rw [h]
  exact optionRel_frame _

theorem clear_of_eq (h : p = p') : p.clear = p'.clear := by
  rw [h]

variable {parent parent' : Option Frame} (h : p = p')
  (hparent : Option.Rel (Frame.Rel Eq) parent parent') (statements : Array (Stmt Address))
  (source : String)
include h hparent

theorem read_of_eq :
    (⟨p.nextId, statements, source, parent⟩ : Block) = ⟨p'.nextId, statements, source, parent'⟩ := by
  rw [h, eq_of_optionRel hparent]

theorem extend_of_eq (labels : List (String × Address)) :
    p.extend statements source parent labels = p'.extend statements source parent' labels := by
  rw [h, eq_of_optionRel hparent]

end Exact

/-- Blocks have the same numbers. -/
def exact : Numbering where
  block := Eq
  program := Eq
  refl := @Eq.refl Block
  statements_eq := @statements_eq_of_eq
  source_eq := @source_eq_of_eq
  parent := @parent_of_eq
  label? := @label?_of_eq
  clear := @clear_of_eq
  read := @read_of_eq
  extend := @extend_of_eq

theorem read_renumbered {p p' : Program} {parent parent' : Option Frame} (_ : p.Renumbered p')
    (hparent : Option.Rel (Frame.Rel Block.Renumbered) parent parent')
    (statements : Array (Stmt Address)) (source : String) :
    Block.Renumbered ⟨p.nextId, statements, source, parent⟩
      ⟨p'.nextId, statements, source, parent'⟩ :=
  .of_parent hparent _ _ statements source

/-- Blocks may have other numbers. -/
def free : Numbering where
  block := Block.Renumbered
  program := Program.Renumbered
  refl := Block.Renumbered.refl
  statements_eq := @Block.Renumbered.statements_eq
  source_eq := @Block.Renumbered.source_eq
  parent := @Block.Renumbered.parent
  label? := @Program.Renumbered.labels
  clear := @Program.Renumbered.clear
  read := @read_renumbered
  extend := @Program.Renumbered.extend

end Numbering

/-! ### What a machine knows of blocks -/

structure Links where
  code : Option Block
  returns : BoundedStack Frame
  resume : Option (Frame × Status)
  program : Program

structure Links.Rel (N : Numbering) (l l' : Links) : Prop where
  code : Option.Rel N.block l.code l'.code
  returns : l.returns.Rel (Frame.Rel N.block) l'.returns
  resume : Option.Rel (fun p p' => Frame.Rel N.block p.1 p'.1 ∧ p.2 = p'.2) l.resume l'.resume
  program : N.program l.program l'.program

theorem Links.rel_self (N : Numbering) (l : Links) (h : N.program l.program l.program) :
    l.Rel N l := by
  have hframe (f : Frame) : Frame.Rel N.block f f := ⟨N.refl _, rfl⟩
  refine ⟨?_, ⟨rfl, rfl, List.forall₂_same.mpr fun f _ => hframe f⟩, ?_, h⟩
  · cases l.code with
    | none => exact .none
    | some block => exact .some (N.refl block)
  · cases l.resume with
    | none => exact .none
    | some r => exact .some ⟨hframe r.1, rfl⟩

end LineBasic
