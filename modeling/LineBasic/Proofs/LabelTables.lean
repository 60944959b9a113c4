import LineBasic.Program

/-!
# Tables of labels

A label names its block by number, and the blocks are kept in a table of their own, which has only
those with labels. The two tables are kept in step: whatever is read and forgotten, the block of every
label is held, under its own number, and that number was given out before. So a new block comes under
a number that no label has, and takes away no other label's place.
-/

namespace LineBasic.Program

set_option autoImplicit false

/-- The block of every label is held, and every block that is held has a number given out before. -/
structure Tight (p : Program) : Prop where
  held : ∀ (id : Nat) (block : Block), p.blocks[id]? = some block → block.id = id ∧ id < p.nextId
  named : ∀ (name : String) (id : Nat) (addr : Address), p.labels[name]? = some (id, addr) →
    ∃ block, p.blocks[id]? = some block

variable {p : Program} {block : Block} {labels : List (String × Address)}

theorem tight_of_empty {nextId : Nat} : Tight { nextId := nextId } where
  held id block h := by simp at h
  named name id addr h := by simp at h

theorem tight_clear (p : Program) : p.clear.Tight :=
  tight_of_empty

theorem label?_empty {nextId : Nat} (name : String) :
    ({ nextId := nextId } : Program).label? name = none := by
  unfold label?
  rw [Std.TreeMap.getElem?_emptyc]
  rfl

theorem label?_clear (p : Program) (name : String) : p.clear.label? name = none :=
  label?_empty name

theorem Tight.advance (h : p.Tight) : Tight { p with nextId := p.nextId + 1 } where
  held id block hblock := ⟨(h.held id block hblock).1, Nat.lt_succ_of_lt (h.held id block hblock).2⟩
  named := h.named

theorem Tight.fresh (h : p.Tight) : p.blocks[p.nextId]? = none := by
  cases hblock : p.blocks[p.nextId]? with
  | none => rfl
  | some block => exact absurd (h.held _ _ hblock).2 (Nat.lt_irrefl _)

/-- Of the labels that are entered, the last one of a name stays. -/
theorem getElem?_enter (id : Nat) (labels : List (String × Address))
    (t : Std.TreeMap String (Nat × Address)) (name : String) :
    (labels.foldl (fun t l => t.insert l.1 (id, l.2)) t)[name]? =
      ((labels.reverse.find? (·.1 = name)).map fun l => (id, l.2)).or t[name]? := by
  induction labels generalizing t with
  | nil => rfl
  | cons l labels ih =>
    rw [List.foldl_cons, ih, Std.TreeMap.getElem?_insert, List.reverse_cons, List.find?_append]
    cases labels.reverse.find? (·.1 = name) with
    | some l' => rfl
    | none => by_cases hname : l.1 = name <;> simp [hname]

theorem nextId_addLabels (p : Program) (block : Block) (labels : List (String × Address)) :
    (p.addLabels block labels).nextId = p.nextId := by
  unfold addLabels
  split <;> rfl

theorem Tight.addLabels (h : p.Tight) (hid : block.id < p.nextId) :
    (p.addLabels block labels).Tight := by
  unfold Program.addLabels
  split
  · exact h
  constructor
  · intro id block' hblock
    rw [Std.TreeMap.getElem?_insert] at hblock
    split at hblock
    · cases hblock
      rename_i heq
      exact ⟨Nat.compare_eq_eq.mp heq, Nat.compare_eq_eq.mp heq ▸ hid⟩
    · exact h.held id block' hblock
  · intro name id addr hlabel
    dsimp only at hlabel ⊢
    rw [getElem?_enter] at hlabel
    rw [Std.TreeMap.getElem?_insert]
    split
    · exact ⟨block, rfl⟩
    rename_i hne
    cases hfind : labels.reverse.find? (·.1 = name) with
    | none =>
      rw [hfind] at hlabel
      exact h.named name id addr hlabel
    | some l =>
      rw [hfind] at hlabel
      cases hlabel
      exact absurd (Nat.compare_eq_eq.mpr rfl) hne

/-- A block that comes under a new number: its labels stand for their last places in it, and the others
for what they stood for before. -/
theorem Tight.label?_addLabels (h : p.Tight) (hnew : p.blocks[block.id]? = none) (name : String) :
    (p.addLabels block labels).label? name =
      ((labels.reverse.find? (·.1 = name)).map fun l => ⟨block, l.2⟩).or (p.label? name) := by
  cases hlabels : labels.isEmpty with
  | true =>
    rw [List.isEmpty_iff.mp hlabels]
    rfl
  | false =>
    unfold Program.addLabels label?
    rw [if_neg (by simp [hlabels])]
    dsimp only
    rw [getElem?_enter]
    cases labels.reverse.find? (·.1 = name) with
    | some l =>
      change ((p.blocks.insert block.id block)[block.id]?).bind _ = _
      rw [Std.TreeMap.getElem?_insert_self]
      rfl
    | none =>
      -- an old label names a block that is held, which cannot be the new one
      change (p.labels[name]?).bind _ = (p.labels[name]?).bind _
      cases hlabel : p.labels[name]? with
      | none => rfl
      | some l =>
        obtain ⟨id, addr⟩ := l
        obtain ⟨old, hold⟩ := h.named name id addr hlabel
        have hne : ¬compare block.id id = .eq := by
          intro heq
          rw [Nat.compare_eq_eq.mp heq, hold] at hnew
          cases hnew
        change ((p.blocks.insert block.id block)[id]?).bind _ = (p.blocks[id]?).bind _
        rw [Std.TreeMap.getElem?_insert, if_neg hne]

/-- In a table that is in step, the place of a label is found wherever the label is. -/
theorem Tight.label?_of_named (h : p.Tight) {name : String} {id : Nat} {addr : Address}
    (hlabel : p.labels[name]? = some (id, addr)) :
    ∃ block, p.blocks[id]? = some block ∧ block.id = id ∧ p.label? name = some ⟨block, addr⟩ := by
  obtain ⟨block, hblock⟩ := h.named name id addr hlabel
  refine ⟨block, hblock, (h.held id block hblock).1, ?_⟩
  unfold label?
  rw [hlabel]
  change (p.blocks[id]?).bind _ = _
  rw [hblock]
  rfl

end LineBasic.Program
