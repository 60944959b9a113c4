import LineBasic.Proofs.Copies

/-!
# Copies in progress

While a copy is made, the copies of some containers are still empty: those around the place that the
search has come to. All other copies are complete, hold the copies of what their originals hold, and
never change again. When the search comes to its end nothing is left empty, and the heap is the old one
with all copies added.
-/

namespace LineBasic

set_option autoImplicit false

namespace Heap

/-- What a container holds. -/
def held (h : Heap) : Kind → Ref → Grid ⊕ Dict
  | .array, r => .inl (h.grid r)
  | .map, r => .inr (h.dict r)

/-- A container of the same sizes or keys with other values. -/
def filled (h : Heap) (vs : List Value) : Kind → Ref → Grid ⊕ Dict
  | .array, r => .inl ((h.grid r).withCells vs)
  | .map, r => .inr ((h.dict r).withValues vs)

/-- The copy of a container, where values are replaced by their copies. -/
def replica (h : Heap) (f : Value → Value) (k : Kind) (r : Ref) : Grid ⊕ Dict :=
  h.filled ((h.contents (k.value r)).map f) k r

theorem replica_congr {h : Heap} {f g : Value → Value} {k : Kind} {r : Ref}
    (hfg : ∀ v ∈ h.contents (k.value r), f v = g v) : h.replica f k r = h.replica g k r := by
  rw [replica, replica, List.map_congr_left hfg]

namespace Copying

/-- The copy of a container, if it was met. -/
def copyOf (c : Copying) : Kind → Ref → Option Ref
  | .array, r => c.grids[r]?
  | .map, r => c.dicts[r]?

/-- Adds an empty copy of a container. -/
def begin (c : Copying) (r : Ref) : Kind → Ref × Copying
  | .array => c.openGrid r
  | .map => c.openDict r

/-- Fills the copy `s` of a container of `h` with values. -/
def finish (c : Copying) (h : Heap) (r s : Ref) (vs : List Value) : Kind → Copying
  | .array => c.fillGrid s ((h.grid r).withCells vs)
  | .map => c.fillDict s ((h.dict r).withValues vs)

section

variable (c : Copying) (h : Heap) (r s : Ref) (vs : List Value) (k k' : Kind) (r' : Ref)

theorem fst_begin : (c.begin r k).1 = c.heap.count k := by
  cases k <;> rfl

theorem copyOf_begin : (c.begin r k).2.copyOf k' r' =
    if k = k' ∧ r = r' then some (c.heap.count k) else c.copyOf k' r' := by
  cases k <;> cases k' <;>
    simp [begin, openGrid, openDict, copyOf, Std.TreeMap.getElem?_insert, count]

theorem count_begin :
    (c.begin r k).2.heap.count k' = c.heap.count k' + if k = k' then 1 else 0 := by
  cases k <;> cases k' <;> simp [begin, openGrid, openDict, count]

theorem held_begin {r' : Ref} (hr' : r' < c.heap.count k') :
    (c.begin r k).2.heap.held k' r' = c.heap.held k' r' := by
  cases k with
  | array =>
    cases k' with
    | array => exact congrArg Sum.inl (getD_push c.heap.grids default hr')
    | map => rfl
  | map =>
    cases k' with
    | array => rfl
    | map => exact congrArg Sum.inr (getD_push c.heap.dicts default hr')

theorem copyOf_finish : (c.finish h r s vs k).copyOf k' r' = c.copyOf k' r' := by
  cases k <;> cases k' <;> rfl

theorem count_finish : (c.finish h r s vs k).heap.count k' = c.heap.count k' := by
  cases k <;> cases k' <;> simp [finish, fillGrid, fillDict, count]

theorem held_finish {s : Ref} (hs : s < c.heap.count k) :
    (c.finish h r s vs k).heap.held k' r' =
      if k = k' ∧ s = r' then h.filled vs k r else c.heap.held k' r' := by
  have hset {α : Type} [Inhabited α] (xs : Array α) (x : α) (hs : s < xs.size) :
      (xs.setIfInBounds s x).getD r' default = if s = r' then x else xs.getD r' default := by
    rw [Array.getD_eq_getD_getElem?, Array.getD_eq_getD_getElem?, Array.getElem?_setIfInBounds,
      if_pos hs]
    split <;> rfl
  cases k with
  | array =>
    cases k' with
    | array =>
      simp only [true_and]
      refine (congrArg Sum.inl (hset c.heap.grids ((h.grid r).withCells vs) hs)).trans ?_
      split <;> rfl
    | map => rfl
  | map =>
    cases k' with
    | array => rfl
    | map =>
      simp only [true_and]
      refine (congrArg Sum.inr (hset c.heap.dicts ((h.dict r).withValues vs) hs)).trans ?_
      split <;> rfl

end

end Copying

section Steps

variable {h : Heap} {fuel : Nat} {v : Value} {k : Kind} {r s : Ref} {c : Copying}

theorem deepCopy_scalar (hv : v.ref? = none) : (h.deepCopy fuel v).run c = (v, c) := by
  cases v with
  | array => cases hv
  | map => cases hv
  | _ => cases fuel <;> rfl

theorem deepCopy_met (hv : v.ref? = some (k, r)) (hr : c.copyOf k r = some s) :
    (h.deepCopy (fuel + 1) v).run c = (k.value s, c) := by
  rw [Value.eq_of_ref? hv]
  cases k with
  | array =>
    rw [Kind.value, deepCopy, StateT.run_bind, StateT.run_get, pure_bind]
    rw [show c.grids[r]? = some s from hr]
    rfl
  | map =>
    rw [Kind.value, deepCopy, StateT.run_bind, StateT.run_get, pure_bind]
    rw [show c.dicts[r]? = some s from hr]
    rfl

theorem deepCopy_new (hv : v.ref? = some (k, r)) (hr : c.copyOf k r = none) :
    (h.deepCopy (fuel + 1) v).run c =
      let (s, c₁) := c.begin r k
      let (ws, c₂) := ((h.contents (k.value r)).mapM (h.deepCopy fuel)).run c₁
      (k.value s, c₂.finish h r s ws k) := by
  rw [Value.eq_of_ref? hv]
  cases k with
  | array =>
    rw [Kind.value, deepCopy, StateT.run_bind, StateT.run_get, pure_bind]
    rw [show c.grids[r]? = none from hr]
    rfl
  | map =>
    rw [Kind.value, deepCopy, StateT.run_bind, StateT.run_get, pure_bind]
    rw [show c.dicts[r]? = none from hr]
    rfl

theorem run_mapM_cons (f : Value → StateM Copying Value) (vs : List Value) :
    ((v :: vs).mapM f).run c =
      let (w, c₁) := (f v).run c
      let (ws, c₂) := (vs.mapM f).run c₁
      (w :: ws, c₂) := by
  rw [List.mapM_cons]
  rfl

end Steps

/-! ### The invariant of a copy in progress -/

/-- A copy in progress that has met `m`, where the copies of the containers `around` are not filled
yet. -/
structure Stage (h : Heap) (m : Reached) (around : List (Kind × Ref)) (c : Copying) : Prop where
  indexed : m.Indexed
  /-- The table tells the place of each copy, behind all containers that were there. -/
  table : ∀ k r, c.copyOf k r = (m.place k r).map (h.count k + ·)
  count : ∀ k, c.heap.count k = h.count k + (m.order k).size
  /-- No container that was there is changed. -/
  old : ∀ k r, r < h.count k → c.heap.held k r = h.held k r
  /-- The copies of all containers but those around are complete. -/
  copied : ∀ k r i, m.place k r = some i → (k, r) ∉ around →
    c.heap.held k (h.count k + i) = h.replica (h.moved m) k r
  /-- Whatever a container with a complete copy holds was met. -/
  closed : ∀ k r, (m.place k r).isSome → (k, r) ∉ around → ∀ v ∈ h.contents (k.value r), m.Has v

theorem moved_of_le {h : Heap} {m m' : Reached} {v : Value} (hv : m.Has v) (hle : m.Le m') :
    h.moved m' v = h.moved m v := by
  cases href : v.ref? with
  | none => rw [moved_scalar href, moved_scalar href]
  | some c =>
    obtain ⟨k, r⟩ := c
    obtain ⟨i, hi⟩ := Option.isSome_iff_exists.mp (hv k r href)
    rw [moved_met href hi, moved_met href (hle k r i hi)]

theorem stage_start (h : Heap) : Stage h {} [] { heap := h } where
  indexed := Reached.indexed_empty
  table k r := by cases k <;> exact Std.TreeMap.getElem?_emptyc
  count _ := rfl
  old _ _ _ := rfl
  copied _ _ _ hi := nomatch hi
  closed _ _ hr := nomatch hr

namespace Stage

variable {h : Heap} {m : Reached} {around : List (Kind × Ref)} {c : Copying} {k : Kind} {r : Ref}

theorem begin (hs : Stage h m around c) (hr : m.place k r = none) :
    Stage h (m.add k r) ((k, r) :: around) (c.begin r k).2 := by
  have hle := Reached.le_add hr
  have hother {k' : Kind} {r' : Ref} (hnot : (k', r') ∉ (k, r) :: around) :
      ¬(k = k' ∧ r = r') ∧ (k', r') ∉ around := by
    rw [List.mem_cons, not_or, Prod.mk.injEq] at hnot
    exact ⟨fun h => hnot.1 ⟨h.1.symm, h.2.symm⟩, hnot.2⟩
  refine ⟨hs.indexed.add hr, fun k' r' => ?_, fun k' => ?_, fun k' r' hr' => ?_,
    fun k' r' i hi hnot => ?_, fun k' r' hsome hnot => ?_⟩
  · rw [Copying.copyOf_begin, Reached.place_add, hs.table, hs.count]
    split
    · rename_i hsame
      obtain ⟨rfl, rfl⟩ := hsame
      rfl
    · rfl
  · rw [Copying.count_begin, hs.count, Reached.order_add]
    split
    · rw [Array.size_push]
      rfl
    · rfl
  · have hlive : r' < c.heap.count k' := by
      rw [hs.count]
      omega
    rw [Copying.held_begin _ _ _ _ hlive, hs.old k' r' hr']
  · obtain ⟨hne, hnot⟩ := hother hnot
    rw [Reached.place_add, if_neg hne] at hi
    have hlt := (Array.getElem?_eq_some_iff.mp ((hs.indexed k' r' i).mp hi)).1
    have hlive : h.count k' + i < c.heap.count k' := by
      rw [hs.count]
      omega
    rw [Copying.held_begin _ _ _ _ hlive, hs.copied k' r' i hi hnot]
    have hclosed := hs.closed k' r' (by rw [hi]; rfl) hnot
    exact replica_congr fun v hv => (moved_of_le (hclosed v hv) hle).symm
  · obtain ⟨hne, hnot⟩ := hother hnot
    rw [Reached.place_add, if_neg hne] at hsome
    exact fun v hv => (hs.closed k' r' hsome hnot v hv).mono hle

theorem finish {i : Nat} (hs : Stage h m ((k, r) :: around) c) (hi : m.place k r = some i)
    (hheld : ∀ v ∈ h.contents (k.value r), m.Has v) :
    Stage h m around
      (c.finish h r (h.count k + i) ((h.contents (k.value r)).map (h.moved m)) k) := by
  have hlt := (Array.getElem?_eq_some_iff.mp ((hs.indexed k r i).mp hi)).1
  have hlive : h.count k + i < c.heap.count k := by
    rw [hs.count]
    omega
  have hnot {k' : Kind} {r' : Ref} (hne : ¬(k = k' ∧ r = r')) (hr' : (k', r') ∉ around) :
      (k', r') ∉ (k, r) :: around := by
    rw [List.mem_cons, not_or, Prod.mk.injEq]
    exact ⟨fun h => hne ⟨h.1.symm, h.2.symm⟩, hr'⟩
  refine ⟨hs.indexed, fun k' r' => ?_, fun k' => ?_, fun k' r' hr' => ?_,
    fun k' r' j hj hr' => ?_, fun k' r' hsome hr' => ?_⟩
  · rw [Copying.copyOf_finish, hs.table]
  · rw [Copying.count_finish, hs.count]
  · rw [Copying.held_finish _ _ _ _ _ _ _ hlive, if_neg, hs.old k' r' hr']
    rintro ⟨rfl, rfl⟩
    omega
  · rw [Copying.held_finish _ _ _ _ _ _ _ hlive]
    by_cases hsame : k = k' ∧ r = r'
    · obtain ⟨rfl, rfl⟩ := hsame
      obtain rfl := Option.some.inj (hi.symm.trans hj)
      rw [if_pos ⟨rfl, rfl⟩]
      rfl
    · rw [if_neg, hs.copied k' r' j hj (hnot hsame hr')]
      rintro ⟨rfl, hplace⟩
      obtain rfl : i = j := Nat.add_left_cancel hplace
      refine hsame ⟨rfl, ?_⟩
      have hthere := (hs.indexed k r i).mp hi
      rw [(hs.indexed k r' i).mp hj] at hthere
      exact (Option.some.inj hthere).symm
  · by_cases hsame : k = k' ∧ r = r'
    · obtain ⟨rfl, rfl⟩ := hsame
      exact hheld
    · exact hs.closed k' r' hsome (hnot hsame hr')

end Stage

/-- A search that comes to its end takes the copy with it: the values are moved to their copies, and no
copy is left empty that was not so before. More fuel makes no difference. -/
theorem Meets.copies {h : Heap} {m m' : Reached} {vs : List Value} (hs : Meets h m vs m')
    {around : List (Kind × Ref)} {c : Copying} (hc : Stage h m around c) :
    ∃ c', Stage h m' around c' ∧ ∀ fuel, h.unmet m < fuel →
      (vs.mapM (h.deepCopy fuel)).run c = (vs.map (h.moved m'), c') := by
  induction hs generalizing around c with
  | nil m => exact ⟨c, hc, fun _ _ => rfl⟩
  | scalar hv _ ih =>
    obtain ⟨c', hc', hrun⟩ := ih hc
    refine ⟨c', hc', fun fuel hfuel => ?_⟩
    rw [run_mapM_cons, deepCopy_scalar hv, List.map_cons, moved_scalar hv]
    dsimp only
    rw [hrun fuel hfuel]
  | @met m m' v vs k r hv hr hvs ih =>
    obtain ⟨i, hi⟩ := Option.isSome_iff_exists.mp hr
    obtain ⟨c', hc', hrun⟩ := ih hc
    have hcopy : c.copyOf k r = some (h.count k + i) := by rw [hc.table, hi]; rfl
    refine ⟨c', hc', fun fuel hfuel => ?_⟩
    cases fuel with
    | zero => exact absurd hfuel (Nat.not_lt_zero _)
    | succ fuel =>
      rw [run_mapM_cons, deepCopy_met hv hcopy, List.map_cons, moved_met hv (hvs.le k r i hi)]
      dsimp only
      rw [hrun _ hfuel]
  | @new m m₁ m' v vs k r hv hr hinside hvs ih₁ ih₂ =>
    have hfirst : (m.add k r).place k r = some (m.order k).size := if_pos ⟨rfl, rfl⟩
    have hplace := hinside.le k r _ hfirst
    have hcopy : c.copyOf k r = none := by rw [hc.table, hr]; rfl
    obtain ⟨c₂, hc₂, hrun₂⟩ := ih₁ (hc.begin hr)
    obtain ⟨c', hc', hrun⟩ := ih₂ (hc₂.finish hplace hinside.has)
    refine ⟨c', hc', fun fuel hfuel => ?_⟩
    cases fuel with
    | zero => exact absurd hfuel (Nat.not_lt_zero _)
    | succ fuel =>
      have hstep : (h.deepCopy (fuel + 1) v).run c = (k.value (h.count k + (m.order k).size),
          c₂.finish h r (h.count k + (m.order k).size)
            ((h.contents (k.value r)).map (h.moved m₁)) k) := by
        have hbegin : c.begin r k = (h.count k + (m.order k).size, (c.begin r k).2) :=
          Prod.ext ((c.fst_begin r k).trans (hc.count k)) rfl
        have hcontents : ((h.contents (k.value r)).mapM (h.deepCopy fuel)).run (c.begin r k).2 =
            ((h.contents (k.value r)).map (h.moved m₁), c₂) := by
          by_cases hlive : r < h.count k
          · exact hrun₂ fuel (Nat.lt_of_lt_of_le (h.unmet_add hlive hr) (Nat.le_of_lt_succ hfuel))
          · have hnone := hrun₂ _ (Nat.lt_succ_self _)
            rw [contents_of_count_le (Nat.le_of_not_lt hlive)] at hnone ⊢
            exact hnone
        rw [deepCopy_new hv hcopy, hbegin]
        dsimp only
        rw [hcontents]
      rw [run_mapM_cons, hstep, List.map_cons, moved_met hv (hvs.le k r _ hplace)]
      dsimp only
      rw [hrun _ (Nat.lt_of_le_of_lt (h.unmet_mono ((Reached.le_add hr).trans hinside.le)) hfuel)]

/-! ### Complete copies -/

theorem Stage.heap_eq {h : Heap} {m : Reached} {c : Copying} (hc : Stage h m [] c) :
    c.heap = h.addCopies m := by
  have hext := h.addCopies_extends m
  have hheld (k : Kind) (r : Ref) (hr : r < c.heap.count k) :
      c.heap.held k r = (h.addCopies m).held k r := by
    rw [hc.count] at hr
    by_cases hold : r < h.count k
    · rw [hc.old k r hold]
      cases k with
      | array => exact congrArg Sum.inl (hext.grid r hold).symm
      | map => exact congrArg Sum.inr (hext.dict r hold).symm
    · obtain ⟨i, rfl⟩ := Nat.exists_eq_add_of_le (Nat.le_of_not_lt hold)
      have hi : i < (m.order k).size := Nat.lt_of_add_lt_add_left hr
      have hplace := Array.getElem?_eq_getElem hi
      rw [hc.copied k _ i ((hc.indexed k _ i).mpr hplace) List.not_mem_nil]
      cases k with
      | array => exact congrArg Sum.inl (grid_addCopies hplace).symm
      | map => exact congrArg Sum.inr (dict_addCopies hplace).symm
  have hcount (k : Kind) : c.heap.count k = (h.addCopies m).count k :=
    (hc.count k).trans (hext.count k).symm
  have hext {α : Type} [Inhabited α] {xs ys : Array α} (hsize : xs.size = ys.size)
      (heq : ∀ i < xs.size, xs.getD i default = ys.getD i default) : xs = ys := by
    refine Array.ext hsize fun i hi hi' => ?_
    have hget := heq i hi
    rwa [Array.getD_eq_getD_getElem?, Array.getD_eq_getD_getElem?, Array.getElem?_eq_getElem hi,
      Array.getElem?_eq_getElem hi'] at hget
  have hgrids : c.heap.grids = (h.addCopies m).grids :=
    hext (hcount .array) fun i hi => Sum.inl.inj (hheld .array i hi)
  have hdicts : c.heap.dicts = (h.addCopies m).dicts :=
    hext (hcount .map) fun i hi => Sum.inr.inj (hheld .map i hi)
  exact congrArg₂ Heap.mk hgrids hdicts

theorem Stage.image_eq {h : Heap} {m : Reached} {around : List (Kind × Ref)} {c : Copying}
    (hc : Stage h m around c) : c.image = h.moved m := by
  funext v
  cases hv : v.ref? with
  | none =>
    rw [moved_scalar hv]
    cases v with
    | array => cases hv
    | map => cases hv
    | _ => rfl
  | some e =>
    obtain ⟨k, r⟩ := e
    have himage : c.image v = k.value ((c.copyOf k r).getD r) := by
      rw [Value.eq_of_ref? hv]
      cases k with
      | array => exact congrArg Value.array Std.TreeMap.getD_eq_getD_getElem?
      | map => exact congrArg Value.map Std.TreeMap.getD_eq_getD_getElem?
    rw [himage, hc.table]
    cases hi : m.place k r with
    | none => rw [moved_other hv hi, Value.eq_of_ref? hv]; rfl
    | some i => rw [moved_met hv hi]; rfl

/-- What is copied with one table is moved as a whole behind everything that was there. -/
theorem copyAll_eq (h : Heap) (vs : List Value) :
    (h.copyAll vs).1 = vs.map (h.moved (h.reachable vs)) ∧
      (h.copyAll vs).2.image = h.moved (h.reachable vs) ∧
      (h.copyAll vs).2.heap = h.addCopies (h.reachable vs) := by
  obtain ⟨c, hc, hrun⟩ := (h.meets_reachable vs).copies h.stage_start
  rw [copyAll, hrun h.depth (h.unmet_lt_depth _)]
  exact ⟨rfl, hc.image_eq, hc.heap_eq⟩

theorem copyFrom_eq (h : Heap) (roots : List Value) : h.copyFrom roots =
    (h.moved (h.reachable roots), h.addCopies (h.reachable roots)) :=
  Prod.ext (h.copyAll_eq roots).2.1 (h.copyAll_eq roots).2.2

/-- The copy of one value, with any fuel that is enough. -/
theorem run_deepCopy (h : Heap) (v : Value) : ∃ c : Copying,
    c.heap = h.addCopies (h.reachable [v]) ∧ ∀ fuel, h.depth ≤ fuel →
      (h.deepCopy fuel v).run { heap := h } = (h.moved (h.reachable [v]) v, c) := by
  obtain ⟨c, hc, hrun⟩ := (h.meets_reachable [v]).copies h.stage_start
  refine ⟨c, hc.heap_eq, fun fuel hfuel => ?_⟩
  have hone := hrun fuel (Nat.lt_of_lt_of_le (h.unmet_lt_depth _) hfuel)
  rw [run_mapM_cons] at hone
  obtain ⟨hvalue, hcopy⟩ := Prod.mk.inj hone
  exact Prod.ext (List.cons.inj hvalue).1 hcopy

theorem copy_eq (h : Heap) (v : Value) : h.copy v =
    (h.moved (h.reachable [v]) v, h.addCopies (h.reachable [v])) := by
  obtain ⟨c, hheap, hrun⟩ := h.run_deepCopy v
  rw [copy, hrun h.depth (Nat.le_refl _), ← hheap]

end Heap

end LineBasic
