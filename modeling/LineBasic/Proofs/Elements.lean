import LineBasic.Machine.Step
import LineBasic.Proofs.Effects
import LineBasic.Proofs.Twins

/-!
# Elements and what a write does to them

An element is a cell of an array or an entry of a map. Writing one changes that element and no
other, and it leaves the sizes of arrays alone. An assignment to an element writes the place that
its selector leads to; if there is none it changes no container.
-/

namespace LineBasic

set_option autoImplicit false

namespace Heap

variable {h : Heap}

/-! ### Finding elements -/

/-- The container that an element belongs to. -/
def holder : Slot → Value
  | .cell r _ => .array r
  | .entry r _ => .map r

section

variable {access : Access} {keys : List Value} {slot : Slot}

theorem locate_array_eq_ok_iff {r : Ref} : h.locate access (.array r) keys = .ok slot ↔
    ∃ offset, (h.grid r).offset keys = .ok offset ∧ slot = .cell r offset := by
  unfold locate
  cases hoffset : (h.grid r).offset keys with
  | ok offset => simp [hoffset, eq_comm]
  | error fault => simp [hoffset]

theorem mapKey_eq_ok_iff {missing key : String} :
    mapKey missing keys = .ok key ↔ ∃ v, keys = [v] ∧ Dict.key? v = some key := by
  unfold mapKey
  split
  · rename_i v
    cases hkey : Dict.key? v with
    | some k => simp [hkey]
    | none => simp [hkey]
  · rename_i hsingle
    constructor
    · intro h
      cases h
    · rintro ⟨v, rfl, -⟩
      exact (hsingle v rfl).elim

theorem locate_map_eq_ok_iff {r : Ref} : h.locate access (.map r) keys = .ok slot ↔
    ∃ v key, keys = [v] ∧ Dict.key? v = some key ∧ slot = .entry r key := by
  unfold locate
  dsimp only
  constructor
  · intro hslot
    cases hkey : mapKey (if access = .writing then "key and value expected" else "map key expected")
        keys with
    | ok key =>
      rw [hkey] at hslot
      obtain ⟨v, hv, hk⟩ := mapKey_eq_ok_iff.mp hkey
      exact ⟨v, key, hv, hk, (Except.ok.inj hslot).symm⟩
    | error e => rw [hkey] at hslot; cases hslot
  · rintro ⟨v, key, rfl, hk, rfl⟩
    rw [mapKey_eq_ok_iff.mpr ⟨v, rfl, hk⟩]
    rfl

/-- Readers and writers find the same element; only their complaints differ. -/
theorem locate_of_locate {container : Value} (hslot : h.locate access container keys = .ok slot)
    (access' : Access) : h.locate access' container keys = .ok slot := by
  cases container with
  | array r => exact locate_array_eq_ok_iff.mpr (locate_array_eq_ok_iff.mp hslot)
  | map r => exact locate_map_eq_ok_iff.mpr (locate_map_eq_ok_iff.mp hslot)
  | _ => cases hslot

theorem holder_of_locate {container : Value} (hslot : h.locate access container keys = .ok slot) :
    holder slot = container := by
  cases container with
  | array r =>
    obtain ⟨offset, -, rfl⟩ := locate_array_eq_ok_iff.mp hslot
    rfl
  | map r =>
    obtain ⟨v, key, -, -, rfl⟩ := locate_map_eq_ok_iff.mp hslot
    rfl
  | _ => cases hslot

end

theorem getElement_eq_ok_iff {container : Value} {keys : List Value} {v : Value} :
    h.getElement container keys = .ok v ↔
      ∃ slot, h.locate .reading container keys = .ok slot ∧ h.read slot = v := by
  unfold getElement
  cases h.locate .reading container keys with
  | ok slot => simp [Except.map]
  | error e => simp [Except.map]

theorem setElement_eq_ok_iff {container : Value} {keys : List Value} {v : Value} {h' : Heap} :
    h.setElement container keys v = .ok h' ↔
      ∃ slot, h.locate .writing container keys = .ok slot ∧ h.write slot v = h' := by
  unfold setElement
  cases h.locate .writing container keys with
  | ok slot => simp [Except.map]
  | error e => simp [Except.map]

/-! ### Writing elements -/

/-- The value of an element, if there is such an element. -/
def element? (h : Heap) : Slot → Option Value
  | .cell r offset => (h.grid r).cells[offset]?
  | .entry r key => (h.dict r).entries[key]?

/-- Whether a write finds its place: arrays do not grow, but maps take new keys. -/
def Writable (h : Heap) : Slot → Prop
  | .cell r offset => offset < (h.grid r).cells.size
  | .entry r _ => r < h.dicts.size

/-- What a missing element reads as. -/
def absent : Slot → Value
  | .cell .. => .number 0
  | .entry .. => Dict.missing

theorem read_eq (h : Heap) (slot : Slot) : h.read slot = (h.element? slot).getD (absent slot) := by
  cases slot with
  | cell r offset => exact Array.getD_eq_getD_getElem?
  | entry r key => exact Std.TreeMap.getD_eq_getD_getElem?

theorem mem_contents {slot : Slot} {v : Value} (hv : h.element? slot = some v) :
    v ∈ h.contents (holder slot) := by
  cases slot with
  | cell r offset => exact Array.mem_toList_iff.mpr (Array.mem_of_getElem? hv)
  | entry r key =>
    exact List.mem_map.mpr ⟨(key, v), Std.TreeMap.mem_toList_iff_getElem?_eq_some.mpr hv, rfl⟩

theorem Writable.lt_size {r : Ref} {offset : Nat} (hw : h.Writable (.cell r offset)) :
    r < h.grids.size := by
  refine Nat.lt_of_not_le fun hle => ?_
  have hgrid : h.grid r = default := Array.getD_eq_getD_getElem?.trans (by simp [hle])
  have hnone : offset < (h.grid r).cells.size := hw
  rw [hgrid] at hnone
  exact Nat.not_lt_zero _ hnone

theorem element?_write {slot : Slot} (hw : h.Writable slot) (v : Value) (slot' : Slot) :
    (h.write slot v).element? slot' = if slot = slot' then some v else h.element? slot' := by
  cases slot with
  | cell r offset =>
    cases slot' with
    | cell r' offset' =>
      unfold element?
      dsimp only
      rw [grid_write_cell h hw.lt_size]
      by_cases hr : r = r'
      · subst hr
        rw [if_pos rfl, Grid.set, Array.getElem?_setIfInBounds]
        by_cases hoffset : offset = offset'
        · subst hoffset
          rw [if_pos rfl, if_pos rfl]
          exact if_pos hw
        · rw [if_neg hoffset, if_neg fun heq => hoffset (Slot.cell.inj heq).2]
      · rw [if_neg hr, if_neg fun heq => hr (Slot.cell.inj heq).1]
    | entry r' key' => exact (if_neg nofun).symm
  | entry r key =>
    cases slot' with
    | cell r' offset' => exact (if_neg nofun).symm
    | entry r' key' =>
      unfold element?
      dsimp only
      rw [dict_write_entry h hw]
      by_cases hr : r = r'
      · subst hr
        rw [if_pos rfl]
        by_cases hkey : key = key'
        · subst hkey
          rw [if_pos rfl]
          exact Std.TreeMap.getElem?_insert_self
        · rw [if_neg fun heq => hkey (Slot.entry.inj heq).2]
          exact Std.TreeMap.getElem?_insert.trans (if_neg (by simpa using hkey))
      · rw [if_neg hr, if_neg fun heq => hr (Slot.entry.inj heq).1]

theorem read_write {slot : Slot} (hw : h.Writable slot) (v : Value) (slot' : Slot) :
    (h.write slot v).read slot' = if slot = slot' then v else h.read slot' := by
  rw [read_eq, read_eq, element?_write hw]
  split
  · rfl
  · rfl

theorem shape_write (h : Heap) (slot : Slot) (v : Value) (r : Ref) :
    ((h.write slot v).grid r).sizes = (h.grid r).sizes ∧
      ((h.write slot v).grid r).size = (h.grid r).size := by
  cases slot with
  | cell r' offset =>
    unfold write grid
    dsimp only
    rw [Array.getD_eq_getD_getElem?, Array.getD_eq_getD_getElem?, Array.getElem?_modify]
    split
    · cases h.grids[r]? with
      | none => exact ⟨rfl, rfl⟩
      | some g => exact ⟨rfl, Array.size_setIfInBounds⟩
    · exact ⟨rfl, rfl⟩
  | entry r' key => exact ⟨rfl, rfl⟩

theorem locate_write {slot : Slot} {v : Value} {access : Access} {container : Value}
    {keys : List Value} {found : Slot} :
    (h.write slot v).locate access container keys = .ok found ↔
      h.locate access container keys = .ok found := by
  cases container with
  | array r =>
    have hoffset : ((h.write slot v).grid r).offset keys = (h.grid r).offset keys := by
      rw [Grid.offset, Grid.offset, (h.shape_write slot v r).1]
    rw [locate_array_eq_ok_iff, locate_array_eq_ok_iff, hoffset]
  | map r => rw [locate_map_eq_ok_iff, locate_map_eq_ok_iff]
  | _ => exact Iff.rfl

end Heap

/-! ### Reading and writing through a selector -/

/-- The evaluation `x` reads the element that `y` finds, and fails where `y` fails. Both draw the
same random numbers. -/
def Eval.Fetches (h : Heap) (x : Eval Value) (y : Eval Slot) : Prop :=
  ∀ random, match y.run random with
    | (.ok slot, after) => x.run random = (.ok (h.read slot), after)
    | (.error _, after) => ∃ e, x.run random = (.error e, after)

namespace Eval.Fetches

variable {h : Heap}

theorem of_throw (e e' : Error) : Fetches h (throw e) (throw e') :=
  fun _ => ⟨e, rfl⟩

theorem of_bind {α : Type} (z : Eval α) {f : α → Eval Value} {g : α → Eval Slot}
    (hfg : ∀ a, Fetches h (f a) (g a)) : Fetches h (z >>= f) (z >>= g) := by
  intro random
  rw [Eval.run_bind, Eval.run_bind]
  rcases z.run random with ⟨r, between⟩
  cases r with
  | ok a => exact hfg a between
  | error e => exact ⟨e, rfl⟩

theorem of_except {α : Type} (pos : Pos) (x : Except Error α) {f : α → Eval Value}
    {g : α → Eval Slot} (hfg : ∀ a, Fetches h (f a) (g a)) :
    Fetches h (Eval.onPos pos x >>= f) (Eval.ofExcept x >>= g) := by
  intro random
  rw [Eval.run_bind, Eval.run_bind]
  cases x with
  | ok a => exact hfg a random
  | error e => exact ⟨_, rfl⟩

theorem ok_iff {x : Eval Value} {y : Eval Slot} (hxy : Fetches h x y) {random after : Random}
    {v : Value} : x.run random = (.ok v, after) ↔
      ∃ slot, y.run random = (.ok slot, after) ∧ h.read slot = v := by
  have hrun := hxy random
  rcases hy : y.run random with ⟨r, between⟩
  rw [hy] at hrun
  cases r with
  | ok slot =>
    dsimp only at hrun
    rw [hrun]
    constructor
    · intro heq
      cases heq
      exact ⟨slot, rfl, rfl⟩
    · rintro ⟨found, heq, rfl⟩
      cases heq
      rfl
  | error e =>
    obtain ⟨e', hrun⟩ := hrun
    rw [hrun]
    constructor
    · intro heq
      cases heq
    · rintro ⟨found, heq, -⟩
      cases heq

end Eval.Fetches

namespace Env

/-- From a container, reading and writing walk through the levels of a selector in step. -/
theorem fetches_slotFrom (env : Env) (pos : Pos) (name : String) (container : Value)
    (level : List Expr) (more : List (List Expr)) :
    Eval.Fetches env.heap (do
        let keys ← env.evalAll level
        let v ← Eval.onPos pos (env.heap.getElement container keys)
        env.fetchFrom pos name v more)
      (env.slotFrom name container level more) := by
  induction more generalizing container level with
  | nil =>
    refine .of_bind _ fun keys random => ?_
    change match (env.heap.locate .writing container keys, random) with
      | (.ok slot, after) => _
      | (.error _, after) => _
    cases hslot : env.heap.locate .writing container keys with
    | ok slot =>
      have hread : env.heap.getElement container keys = .ok (env.heap.read slot) :=
        Heap.getElement_eq_ok_iff.mpr ⟨slot, Heap.locate_of_locate hslot .reading, rfl⟩
      rw [hread]
      rfl
    | error e =>
      cases hread : env.heap.getElement container keys with
      | ok v =>
        obtain ⟨slot, hfound, -⟩ := Heap.getElement_eq_ok_iff.mp hread
        rw [Heap.locate_of_locate hfound .writing] at hslot
        cases hslot
      | error e' => exact ⟨_, rfl⟩
  | cons following more ih =>
    refine .of_bind _ fun keys => .of_except pos _ fun v => ?_
    unfold fetchFrom
    split
    · exact .of_throw _ _
    · exact ih v following

theorem fetches_select {env : Env} {name : String} {container : Value}
    (hname : env.container? name = some container) (pos : Pos) (first : List Expr)
    (more : List (List Expr)) :
    Eval.Fetches env.heap (env.eval (.select pos name first more))
      (env.slotFrom name container first more) := by
  have hfetch := env.fetches_slotFrom pos name container first more
  unfold eval
  rw [hname]
  exact hfetch

section

variable {env : Env} {name : String} {container : Value}
  (hname : env.scope.fetch name = some container) (hcontainer : container.isContainer = true)
include hname hcontainer

theorem container?_eq : env.container? name = some container := by
  rw [container?, hname, Option.filter_some, if_pos hcontainer]

theorem slot_eq_slotFrom (first : List Expr) (more : List (List Expr)) :
    env.slot name ⟨first :: more⟩ = env.slotFrom name container first more := by
  rw [slot, hname]
  exact if_pos hcontainer

end

end Env

namespace Action

theorem run_storeElement (name : String) (selector : Selector) (v : Value) (m : Machine) :
    (storeElement name selector v).run m =
      match (m.env.slot name selector).run m.random with
      | (.ok slot, random) => (.ok (), { m with random := random, heap := m.heap.write slot v })
      | (.error e, random) => (.error e, { m with random := random }) := by
  rw [storeElement, slot_eq, run_bind, run_evaluate]
  rcases (m.env.slot name selector).run m.random with ⟨r, random⟩
  cases r with
  | ok slot => rfl
  | error e => rfl

theorem storeElement_eq_ok_iff {name : String} {selector : Selector} {v : Value} {m n : Machine} :
    (storeElement name selector v).run m = (.ok (), n) ↔ ∃ slot random,
      (m.env.slot name selector).run m.random = (.ok slot, random) ∧
        n = { m with random := random, heap := m.heap.write slot v } := by
  rw [run_storeElement]
  rcases (m.env.slot name selector).run m.random with ⟨r, random⟩
  cases r with
  | ok slot =>
    constructor
    · intro heq
      exact ⟨slot, random, rfl, (Prod.mk.inj heq).2.symm⟩
    · rintro ⟨found, after, heq, rfl⟩
      cases heq
      rfl
  | error e =>
    constructor
    · intro heq
      cases heq
    · rintro ⟨found, after, heq, -⟩
      cases heq

theorem fetch_eq_ok_iff {name : String} {container : Value} {first : List Expr}
    {more : List (List Expr)} {m n : Machine} (hname : m.scope.fetch name = some container)
    (hcontainer : container.isContainer = true) {pos : Pos} {w : Value} :
    (eval (.select pos name first more)).run m = (.ok w, n) ↔ ∃ slot random,
      (m.env.slot name ⟨first :: more⟩).run m.random = (.ok slot, random) ∧
        m.heap.read slot = w ∧ n = { m with random := random } := by
  have hfetch : m.env.scope.fetch name = some container := hname
  have hfetches := Env.fetches_select (Env.container?_eq hfetch hcontainer) pos first more
  rw [← Env.slot_eq_slotFrom hfetch hcontainer] at hfetches
  rw [eval_eq, run_evaluate]
  constructor
  · intro hrun
    obtain ⟨hresult, rfl⟩ := Prod.mk.inj hrun
    obtain ⟨slot, hslot, hread⟩ := hfetches.ok_iff.mp (Prod.ext hresult rfl)
    exact ⟨slot, _, hslot, hread, rfl⟩
  · rintro ⟨slot, random, hslot, hread, rfl⟩
    rw [hfetches.ok_iff.mpr ⟨slot, hslot, hread⟩]

theorem run_storeElement_single {m : Machine} {name : String} {container : Value}
    {first : List Expr} {keys : List Value} {random : Random}
    (hname : m.scope.fetch name = some container) (hcontainer : container.isContainer = true)
    (hkeys : (evalAll first).run m = (.ok keys, { m with random := random })) (v : Value) :
    (storeElement name ⟨[first]⟩ v).run m =
      match m.heap.setElement container keys v with
      | .ok heap => (.ok (), { m with random := random, heap := heap })
      | .error e => (.error e, { m with random := random }) := by
  have hslot : (m.env.slot name ⟨[first]⟩).run m.random =
      (m.heap.locate .writing container keys, random) := by
    have hfetch : m.env.scope.fetch name = some container := hname
    rw [evalAll_eq, run_evaluate] at hkeys
    obtain ⟨hvalues, hafter⟩ := Prod.mk.inj hkeys
    have hrun : (m.env.evalAll first).run m.random = (.ok keys, random) :=
      Prod.ext hvalues (congrArg Machine.random hafter)
    rw [Env.slot_eq_slotFrom hfetch hcontainer, Env.slotFrom, Eval.run_bind, hrun]
    rfl
  rw [run_storeElement, hslot, Heap.setElement]
  cases m.heap.locate .writing container keys with
  | ok slot => rfl
  | error e => rfl

end Action

end LineBasic
