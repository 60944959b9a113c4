import Mathlib.Data.Finset.Card
import LineBasic.Proofs.Twins

/-!
# Copies of containers

A copy follows references depth first. What it has met so far is numbered without gaps, and a search is
a way from one such numbering to another: it passes by scalars and containers that it knows, and opens
the others. From any values a search leads to the end, since there are only so many containers to open,
and whatever can be reached from the values is met on the way. The copies stand behind all other
containers in the order in which the originals were met.
-/

namespace LineBasic

set_option autoImplicit false

/-- The container that a value refers to. -/
def Value.ref? : Value → Option (Kind × Ref)
  | .array r => some (.array, r)
  | .map r => some (.map, r)
  | _ => none

def Kind.value : Kind → Ref → Value
  | .array, r => .array r
  | .map, r => .map r

theorem Value.eq_of_ref? {v : Value} {k : Kind} {r : Ref} (h : v.ref? = some (k, r)) :
    v = k.value r := by
  cases v <;> cases h <;> rfl

theorem Value.isContainer_of_ref? {v : Value} (h : v.ref? = none) : v.isContainer = false := by
  cases v with
  | array => cases h
  | map => cases h
  | _ => rfl

/-- The array with each cell replaced. -/
def Grid.mapCells (g : Grid) (f : Value → Value) : Grid :=
  g.withCells (g.cells.toList.map f)

theorem Grid.cells_mapCells (g : Grid) (f : Value → Value) :
    (g.mapCells f).cells = g.cells.map f := by
  change (g.cells.toList.map f).toArray = _
  rw [← Array.toList_map, Array.toArray_toList]

namespace Dict

/-- The map with each value replaced. -/
def mapValues (d : Dict) (f : Value → Value) : Dict :=
  d.withValues (d.values.map f)

theorem mapValues_equiv (d : Dict) (f : Value → Value) :
    (d.mapValues f).entries.Equiv (d.entries.map fun _ v => f v) := by
  have hzip : d.entries.keys.zip (d.values.map f) = d.toList.map fun e => (e.1, f e.2) := by
    rw [← Std.TreeMap.map_fst_toList_eq_keys, values, List.map_map]
    exact List.zip_map'
  apply Std.TreeMap.Equiv.of_forall_constGet?_eq
  intro key
  change (Std.TreeMap.ofList (d.entries.keys.zip (d.values.map f)))[key]? = (d.entries.map _)[key]?
  rw [hzip, Std.TreeMap.getElem?_map]
  cases hv : d.entries[key]? with
  | none =>
    apply Std.TreeMap.getElem?_ofList_of_contains_eq_false
    rw [List.map_map]
    change (d.entries.toList.map Prod.fst).contains key = false
    rw [Std.TreeMap.map_fst_toList_eq_keys, Std.TreeMap.contains_keys,
      ← Std.TreeMap.isSome_getElem?_eq_contains, hv]
    rfl
  | some v =>
    apply Std.TreeMap.getElem?_ofList_of_mem Std.ReflCmp.compare_self
    · exact List.pairwise_map.mpr Std.TreeMap.distinct_keys_toList
    · exact List.mem_map.mpr ⟨(key, v), Std.TreeMap.mem_toList_iff_getElem?_eq_some.mpr hv, rfl⟩

end Dict

namespace Heap

theorem ref?_value (k : Kind) (r : Ref) : (k.value r).ref? = some (k, r) := by
  cases k <;> rfl

/-! ### What a search has met -/

/-- The containers that were met, in order, and the place of each in the order of its kind. -/
structure Reached where
  order : Kind → Array Ref := fun _ => #[]
  place : Kind → Ref → Option Nat := fun _ _ => none

namespace Reached

def add (m : Reached) (k : Kind) (r : Ref) : Reached where
  order k' := if k = k' then (m.order k').push r else m.order k'
  place k' r' := if k = k' ∧ r = r' then some (m.order k).size else m.place k' r'

theorem place_add (m : Reached) (k : Kind) (r : Ref) (k' : Kind) (r' : Ref) :
    (m.add k r).place k' r' =
      if k = k' ∧ r = r' then some (m.order k).size else m.place k' r' := rfl

theorem order_add (m : Reached) (k : Kind) (r : Ref) (k' : Kind) :
    (m.add k r).order k' = if k = k' then (m.order k').push r else m.order k' := rfl

/-- Places tell where a container stands in the order, and every place is told. -/
def Indexed (m : Reached) : Prop :=
  ∀ k r i, m.place k r = some i ↔ (m.order k)[i]? = some r

theorem indexed_empty : Indexed {} := by
  intro k r i
  simp

theorem Indexed.add {m : Reached} (hm : m.Indexed) {k : Kind} {r : Ref} (hr : m.place k r = none) :
    (m.add k r).Indexed := by
  intro k' r' i
  rw [place_add, order_add]
  by_cases hk : k = k'
  · subst hk
    have hbound (hi : (m.order k)[i]? = some r') : i < (m.order k).size := by
      exact (Array.getElem?_eq_some_iff.mp hi).1
    rw [if_pos rfl, Array.getElem?_push]
    by_cases hr' : r = r'
    · subst hr'
      rw [if_pos ⟨rfl, rfl⟩, Option.some_inj]
      split
      · rename_i hi
        exact ⟨fun _ => rfl, fun _ => hi.symm⟩
      · rename_i hi
        rw [← hm k r i, hr]
        exact ⟨fun h => absurd h.symm hi, nofun⟩
    · rw [if_neg fun h => hr' h.2, hm k r' i]
      split
      · rename_i hi
        rw [Option.some_inj]
        refine ⟨fun h => ?_, fun h => absurd h hr'⟩
        have := hbound h
        omega
      · rfl
  · rw [if_neg fun h => hk h.1, if_neg hk]
    exact hm k' r' i

/-- What was met stays where it is. -/
def Le (m m' : Reached) : Prop :=
  ∀ k r i, m.place k r = some i → m'.place k r = some i

theorem Le.trans {m m' m'' : Reached} (h : m.Le m') (h' : m'.Le m'') : m.Le m'' :=
  fun k r i hi => h' k r i (h k r i hi)

theorem le_add {m : Reached} {k : Kind} {r : Ref} (hr : m.place k r = none) : m.Le (m.add k r) := by
  intro k' r' i hi
  rw [place_add, if_neg]
  · exact hi
  · rintro ⟨rfl, rfl⟩
    cases hr.symm.trans hi

/-- Whether the container that a value refers to was met. -/
def Has (m : Reached) (v : Value) : Prop :=
  ∀ k r, v.ref? = some (k, r) → (m.place k r).isSome

theorem Has.of_scalar {m : Reached} {v : Value} (hv : v.ref? = none) : m.Has v :=
  fun _ _ h => nomatch hv.symm.trans h

theorem Has.of_met {m : Reached} {v : Value} {k : Kind} {r : Ref} (hv : v.ref? = some (k, r))
    (hr : (m.place k r).isSome) : m.Has v := by
  intro k' r' h
  cases hv.symm.trans h
  exact hr

theorem Has.mono {m m' : Reached} {v : Value} (hv : m.Has v) (hle : m.Le m') : m'.Has v := by
  intro k r href
  obtain ⟨i, hi⟩ := Option.isSome_iff_exists.mp (hv k r href)
  exact Option.isSome_iff_exists.mpr ⟨i, hle k r i hi⟩

end Reached

/-! ### The search -/

/-- A search through the values of a list, depth first. -/
inductive Meets (h : Heap) : Reached → List Value → Reached → Prop where
  | nil (m : Reached) : Meets h m [] m
  | scalar {m m' : Reached} {v : Value} {vs : List Value} (hv : v.ref? = none)
      (hvs : Meets h m vs m') : Meets h m (v :: vs) m'
  | met {m m' : Reached} {v : Value} {vs : List Value} {k : Kind} {r : Ref}
      (hv : v.ref? = some (k, r)) (hr : (m.place k r).isSome) (hvs : Meets h m vs m') :
      Meets h m (v :: vs) m'
  | new {m m₁ m' : Reached} {v : Value} {vs : List Value} {k : Kind} {r : Ref}
      (hv : v.ref? = some (k, r)) (hr : m.place k r = none)
      (hinside : Meets h (m.add k r) (h.contents (k.value r)) m₁) (hvs : Meets h m₁ vs m') :
      Meets h m (v :: vs) m'

/-- The number of containers of one kind that were not met. -/
def unmetOf (h : Heap) (m : Reached) (k : Kind) : Nat :=
  ((Finset.range (h.count k)).filter fun r => m.place k r = none).card

def unmet (h : Heap) (m : Reached) : Nat :=
  h.unmetOf m .array + h.unmetOf m .map

theorem contents_of_count_le {h : Heap} {k : Kind} {r : Ref} (hr : h.count k ≤ r) :
    h.contents (k.value r) = [] := by
  cases k with
  | array =>
    have hgrid : h.grid r = default := by
      rw [grid, Array.getD_eq_getD_getElem?, Array.getElem?_eq_none hr]
      rfl
    change (h.grid r).cells.toList = []
    rw [hgrid]
    rfl
  | map =>
    have hdict : h.dict r = default := by
      rw [dict, Array.getD_eq_getD_getElem?, Array.getElem?_eq_none hr]
      rfl
    change (h.dict r).values = []
    rw [hdict]
    rfl

theorem unmetOf_mono (h : Heap) {m m' : Reached} (hle : m.Le m') (k : Kind) :
    h.unmetOf m' k ≤ h.unmetOf m k := by
  apply Finset.card_le_card
  intro r hr
  obtain ⟨hlive, hnone⟩ := Finset.mem_filter.mp hr
  refine Finset.mem_filter.mpr ⟨hlive, ?_⟩
  cases hi : m.place k r with
  | none => rfl
  | some i => cases hnone.symm.trans (hle k r i hi)

theorem unmet_mono (h : Heap) {m m' : Reached} (hle : m.Le m') : h.unmet m' ≤ h.unmet m :=
  Nat.add_le_add (h.unmetOf_mono hle .array) (h.unmetOf_mono hle .map)

theorem unmetOf_add (h : Heap) {m : Reached} {k : Kind} {r : Ref} (hlive : r < h.count k)
    (hr : m.place k r = none) : h.unmetOf (m.add k r) k < h.unmetOf m k := by
  apply Finset.card_lt_card
  refine ⟨?_, fun hsub => ?_⟩
  · intro s hs
    obtain ⟨hs, hnone⟩ := Finset.mem_filter.mp hs
    refine Finset.mem_filter.mpr ⟨hs, ?_⟩
    rw [Reached.place_add] at hnone
    split at hnone
    · cases hnone
    · exact hnone
  · have hmem := hsub (Finset.mem_filter.mpr ⟨Finset.mem_range.mpr hlive, hr⟩)
    have hnone := (Finset.mem_filter.mp hmem).2
    rw [Reached.place_add, if_pos ⟨rfl, rfl⟩] at hnone
    cases hnone

/-- Opening a container leaves fewer to be opened. -/
theorem unmet_add (h : Heap) {m : Reached} {k : Kind} {r : Ref} (hlive : r < h.count k)
    (hr : m.place k r = none) : h.unmet (m.add k r) < h.unmet m := by
  have hself := h.unmetOf_add hlive hr
  have hother := fun k' => h.unmetOf_mono (Reached.le_add hr) k'
  cases k with
  | array => exact Nat.add_lt_add_of_lt_of_le hself (hother .map)
  | map => exact Nat.add_lt_add_of_le_of_lt (hother .array) hself

theorem unmet_lt_depth (h : Heap) (m : Reached) : h.unmet m < h.depth := by
  have hof (k : Kind) : h.unmetOf m k ≤ h.count k := by
    refine (Finset.card_filter_le _ _).trans ?_
    rw [Finset.card_range]
  exact Nat.lt_succ_of_le (Nat.add_le_add (hof .array) (hof .map))

namespace Meets

variable {h : Heap} {m m' : Reached} {vs : List Value}

theorem le (hs : Meets h m vs m') : m.Le m' := by
  induction hs with
  | nil m => exact fun _ _ _ => id
  | scalar _ _ ih => exact ih
  | met _ _ _ ih => exact ih
  | new _ hr _ _ ih₁ ih₂ => exact (Reached.le_add hr).trans (ih₁.trans ih₂)

theorem indexed (hs : Meets h m vs m') (hm : m.Indexed) : m'.Indexed := by
  induction hs with
  | nil m => exact hm
  | scalar _ _ ih => exact ih hm
  | met _ _ _ ih => exact ih hm
  | new _ hr _ _ ih₁ ih₂ => exact ih₂ (ih₁ (hm.add hr))

theorem has (hs : Meets h m vs m') : ∀ v ∈ vs, m'.Has v := by
  induction hs with
  | nil m => exact fun _ hv => nomatch hv
  | scalar hv _ ih => exact List.forall_mem_cons.mpr ⟨.of_scalar hv, ih⟩
  | met hv hr hvs ih => exact List.forall_mem_cons.mpr ⟨(Reached.Has.of_met hv hr).mono hvs.le, ih⟩
  | new hv hr hinside hvs _ ih =>
    refine List.forall_mem_cons.mpr ⟨?_, ih⟩
    refine (Reached.Has.of_met hv ?_).mono (hinside.le.trans hvs.le)
    rw [Reached.place_add, if_pos ⟨rfl, rfl⟩]
    rfl

/-- A container that is opened on the way leads to nothing that is not met. -/
theorem opened (hs : Meets h m vs m') {k : Kind} {r : Ref} (hnone : m.place k r = none)
    (hsome : (m'.place k r).isSome) : ∀ v ∈ h.contents (k.value r), m'.Has v := by
  induction hs with
  | nil m =>
    rw [hnone] at hsome
    cases hsome
  | scalar _ _ ih => exact ih hnone hsome
  | met _ _ _ ih => exact ih hnone hsome
  | @new m m₁ m' v vs k' r' hv hr hinside hvs ih₁ ih₂ =>
    by_cases hsame : k' = k ∧ r' = r
    · obtain ⟨rfl, rfl⟩ := hsame
      exact fun w hw => (hinside.has w hw).mono hvs.le
    · have hnone' : (m.add k' r').place k r = none := by
        rw [Reached.place_add, if_neg hsame, hnone]
      cases hi : m₁.place k r with
      | none => exact ih₂ hi hsome
      | some i => exact fun w hw => (ih₁ hnone' (by rw [hi]; rfl) w hw).mono hvs.le

/-- There is only one way to search. -/
theorem unique {m'' : Reached} (hs : Meets h m vs m') (hs' : Meets h m vs m'') : m' = m'' := by
  induction hs generalizing m'' with
  | nil m => cases hs'; rfl
  | scalar hv _ ih =>
    cases hs' with
    | scalar _ hvs => exact ih hvs
    | met hv' => cases hv.symm.trans hv'
    | new hv' => cases hv.symm.trans hv'
  | met hv hr _ ih =>
    cases hs' with
    | scalar hv' => cases hv.symm.trans hv'
    | met _ _ hvs => exact ih hvs
    | new hv' hr' =>
      cases hv.symm.trans hv'
      rw [hr'] at hr
      cases hr
  | new hv hr _ _ ih₁ ih₂ =>
    cases hs' with
    | scalar hv' => cases hv.symm.trans hv'
    | met hv' hr' =>
      cases hv.symm.trans hv'
      rw [hr] at hr'
      cases hr'
    | new hv' _ hinside hvs =>
      cases hv.symm.trans hv'
      obtain rfl := ih₁ hinside
      exact ih₂ hvs

end Meets

/-- A search comes to its end: it opens containers of the heap only, and each of them once. -/
theorem exists_meets (h : Heap) (m : Reached) (vs : List Value) : ∃ m', Meets h m vs m' := by
  -- The containers that are left bound the depth; on each level the values are taken in turn.
  induction hn : h.unmet m using Nat.strong_induction_on generalizing m vs with
  | _ n ih =>
    induction vs generalizing m with
    | nil => exact ⟨m, .nil m⟩
    | cons v vs ihvs =>
      cases hv : v.ref? with
      | none =>
        obtain ⟨m', hvs⟩ := ihvs m hn
        exact ⟨m', .scalar hv hvs⟩
      | some c =>
        obtain ⟨k, r⟩ := c
        cases hr : m.place k r with
        | some i =>
          obtain ⟨m', hvs⟩ := ihvs m hn
          exact ⟨m', .met hv (by rw [hr]; rfl) hvs⟩
        | none =>
          have hinside : ∃ m₁, Meets h (m.add k r) (h.contents (k.value r)) m₁ := by
            by_cases hlive : r < h.count k
            · exact ih _ (hn ▸ h.unmet_add hlive hr) _ _ rfl
            · rw [contents_of_count_le (Nat.le_of_not_lt hlive)]
              exact ⟨_, .nil _⟩
          obtain ⟨m₁, hinside⟩ := hinside
          have hle : h.unmet m₁ ≤ n :=
            hn ▸ h.unmet_mono ((Reached.le_add hr).trans hinside.le)
          have hrest : ∃ m', Meets h m₁ vs m' := by
            rcases Nat.lt_or_eq_of_le hle with hlt | heq
            · exact ih _ hlt _ _ rfl
            · exact ihvs m₁ heq
          obtain ⟨m', hvs⟩ := hrest
          exact ⟨m', .new hv hr hinside hvs⟩

/-- Everything that can be reached from the values, in the order in which a search meets it. -/
noncomputable def reachable (h : Heap) (roots : List Value) : Reached :=
  (h.exists_meets {} roots).choose

theorem meets_reachable (h : Heap) (roots : List Value) : Meets h {} roots (h.reachable roots) :=
  (h.exists_meets {} roots).choose_spec

theorem indexed_reachable (h : Heap) (roots : List Value) : (h.reachable roots).Indexed :=
  (h.meets_reachable roots).indexed Reached.indexed_empty

theorem has_reachable {h : Heap} {roots : List Value} {v : Value} (hv : v ∈ roots) :
    (h.reachable roots).Has v :=
  (h.meets_reachable roots).has v hv

theorem has_contents {h : Heap} {roots : List Value} {k : Kind} {r : Ref}
    (hr : ((h.reachable roots).place k r).isSome) {v : Value} (hv : v ∈ h.contents (k.value r)) :
    (h.reachable roots).Has v :=
  (h.meets_reachable roots).opened rfl hr v hv

/-! ### Containers that exist -/

/-- A value that refers to no missing container. -/
def Live (h : Heap) (v : Value) : Prop :=
  ∀ k r, v.ref? = some (k, r) → r < h.count k

/-- A heap in which every container holds references to existing ones only. -/
def Closed (h : Heap) : Prop :=
  ∀ k r, r < h.count k → ∀ v ∈ h.contents (k.value r), h.Live v

theorem Meets.live {h : Heap} (hclosed : h.Closed) {m m' : Reached} {vs : List Value}
    (hs : Meets h m vs m') (hvs : ∀ v ∈ vs, h.Live v) {k : Kind} {r : Ref}
    (hnone : m.place k r = none) (hsome : (m'.place k r).isSome) : r < h.count k := by
  induction hs with
  | nil m =>
    rw [hnone] at hsome
    cases hsome
  | scalar _ _ ih => exact ih (List.forall_mem_cons.mp hvs).2 hnone hsome
  | met _ _ _ ih => exact ih (List.forall_mem_cons.mp hvs).2 hnone hsome
  | @new m m₁ m' v vs k' r' hv hr hinside _ ih₁ ih₂ =>
    obtain ⟨hv', hvs⟩ := List.forall_mem_cons.mp hvs
    have hlive := hv' k' r' hv
    by_cases hsame : k' = k ∧ r' = r
    · obtain ⟨rfl, rfl⟩ := hsame
      exact hlive
    · cases hi : m₁.place k r with
      | none => exact ih₂ hvs hi hsome
      | some i =>
        refine ih₁ (hclosed k' r' hlive) ?_ (by rw [hi]; rfl)
        rw [Reached.place_add, if_neg hsame, hnone]

theorem Closed.live_reachable {h : Heap} (hclosed : h.Closed) {roots : List Value}
    (hroots : ∀ v ∈ roots, h.Live v) {k : Kind} {r : Ref}
    (hr : ((h.reachable roots).place k r).isSome) : r < h.count k :=
  (h.meets_reachable roots).live hclosed hroots rfl hr

/-! ### The copies -/

/-- A value with its reference moved to the copy of what it referred to. -/
def moved (h : Heap) (m : Reached) (v : Value) : Value :=
  match v.ref? with
  | some (k, r) => (m.place k r).elim v fun i => k.value (h.count k + i)
  | none => v

/-- Adds copies of the containers in `m`. -/
def addCopies (h : Heap) (m : Reached) : Heap where
  grids := h.grids ++ (m.order .array).map fun r => (h.grid r).mapCells (h.moved m)
  dicts := h.dicts ++ (m.order .map).map fun r => (h.dict r).mapValues (h.moved m)

section Moved

variable {h : Heap} {m : Reached} {v : Value} {k : Kind} {r : Ref}

theorem moved_scalar (hv : v.ref? = none) : h.moved m v = v := by
  rw [moved, hv]

theorem moved_met {i : Nat} (hv : v.ref? = some (k, r)) (hr : m.place k r = some i) :
    h.moved m v = k.value (h.count k + i) := by
  rw [moved, hv]
  dsimp only
  rw [hr]
  rfl

theorem moved_other (hv : v.ref? = some (k, r)) (hr : m.place k r = none) : h.moved m v = v := by
  rw [moved, hv]
  dsimp only
  rw [hr]
  rfl

theorem addCopies_extends (h : Heap) (m : Reached) :
    h.Extends (fun k => (m.order k).size) (h.addCopies m) where
  count k := by
    cases k with
    | array =>
      change (h.grids ++ (m.order .array).map _).size = _
      rw [Array.size_append, Array.size_map]
      rfl
    | map =>
      change (h.dicts ++ (m.order .map).map _).size = _
      rw [Array.size_append, Array.size_map]
      rfl
  grid r hr := by
    change (h.grids ++ (m.order .array).map _).getD r default = h.grids.getD r default
    rw [Array.getD_eq_getD_getElem?, Array.getD_eq_getD_getElem?, Array.getElem?_append_left hr]
  dict r hr := by
    change (h.dicts ++ (m.order .map).map _).getD r default = h.dicts.getD r default
    rw [Array.getD_eq_getD_getElem?, Array.getD_eq_getD_getElem?, Array.getElem?_append_left hr]

theorem grid_addCopies {i : Nat} (hi : (m.order .array)[i]? = some r) :
    (h.addCopies m).grid (h.count .array + i) = (h.grid r).mapCells (h.moved m) := by
  change (h.grids ++ (m.order .array).map _).getD (h.grids.size + i) default = _
  rw [Array.getD_eq_getD_getElem?, Array.getElem?_append_right (Nat.le_add_right _ _),
    Nat.add_sub_cancel_left, Array.getElem?_map, hi]
  rfl

theorem dict_addCopies {i : Nat} (hi : (m.order .map)[i]? = some r) :
    (h.addCopies m).dict (h.count .map + i) = (h.dict r).mapValues (h.moved m) := by
  change (h.dicts ++ (m.order .map).map _).getD (h.dicts.size + i) default = _
  rw [Array.getD_eq_getD_getElem?, Array.getElem?_append_right (Nat.le_add_right _ _),
    Nat.add_sub_cancel_left, Array.getElem?_map, hi]
  rfl

end Moved

end Heap

end LineBasic
