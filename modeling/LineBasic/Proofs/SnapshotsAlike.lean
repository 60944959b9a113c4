import LineBasic.Proofs.Snapshots

/-!
# Snapshots in lockstep

Machines that are the same up to renaming meet related containers in the same order when they look
for what a snapshot has to copy. So the copies pair up one by one, and the snapshots are the same up to
renaming as well as the machines that go on.
-/

namespace LineBasic

set_option autoImplicit false

theorem Kind.value_rel {σ : Renaming} {k : Kind} {r s : Ref} (h : σ.rel k r s) :
    Value.Rel σ (k.value r) (k.value s) := by
  cases k with
  | array => exact .array h
  | map => exact .map h

theorem Value.Rel.refs {σ : Renaming} {v w : Value} (h : Value.Rel σ v w) :
    (v.ref? = none ∧ v = w) ∨
      ∃ k r s, v.ref? = some (k, r) ∧ w.ref? = some (k, s) ∧ σ.rel k r s := by
  cases h with
  | scalar h => exact .inl ⟨ref?_of_scalar h, rfl⟩
  | array h => exact .inr ⟨.array, _, _, rfl, rfl, h⟩
  | map h => exact .inr ⟨.map, _, _, rfl, rfl, h⟩

namespace Heap

variable {σ : Renaming} {h h' : Heap}

theorem Rel.contents (hrel : Rel σ h h') {k : Kind} {r s : Ref} (hrs : σ.rel k r s) :
    List.Forall₂ (Value.Rel σ) (h.contents (k.value r)) (h'.contents (k.value s)) := by
  cases k with
  | array => exact (hrel.grid hrs).cells
  | map =>
    have hentries := Table.Rel.toList (hrel.dict hrs)
    change List.Forall₂ _ ((h.dict r).entries.toList.map (·.2)) ((h'.dict s).entries.toList.map (·.2))
    rw [List.forall₂_map_left_iff, List.forall₂_map_right_iff]
    exact hentries.imp fun _ _ he => he.2

/-! ### The search -/

/-- Related containers were met in the same order. -/
structure Reached.Rel (σ : Renaming) (m m' : Reached) : Prop where
  order : ∀ k, List.Forall₂ (σ.rel k) (m.order k).toList (m'.order k).toList
  place : ∀ k r s, σ.rel k r s → m.place k r = m'.place k s

namespace Reached.Rel

variable {m m' : Reached} (hm : Reached.Rel σ m m')
include hm

theorem size_eq (k : Kind) : (m.order k).size = (m'.order k).size :=
  (hm.order k).length_eq

theorem add {k : Kind} {r s : Ref} (hrs : σ.rel k r s) : Reached.Rel σ (m.add k r) (m'.add k s) where
  order k' := by
    rw [order_add, order_add]
    split
    · rename_i hk
      cases hk
      rw [Array.toList_push, Array.toList_push]
      exact List.rel_append (hm.order k) (.cons hrs .nil)
    · exact hm.order k'
  place k' r' s' hrs' := by
    rw [place_add, place_add, hm.size_eq, hm.place k' r' s' hrs']
    by_cases hk : k = k'
    · cases hk
      have hsame := σ.one_to_one hrs hrs'
      by_cases hr : r = r'
      · rw [if_pos ⟨rfl, hr⟩, if_pos ⟨rfl, hsame.mp hr⟩]
      · rw [if_neg fun h => hr h.2, if_neg fun h => hr (hsame.mpr h.2)]
    · rw [if_neg fun h => hk h.1, if_neg fun h => hk h.1]

end Reached.Rel

theorem Reached.rel_empty : Reached.Rel σ {} {} := by
  constructor
  · intro k
    cases k <;> exact .nil
  · intro k r s _
    cases k <;> rfl

/-- Searches from related values meet related containers in the same order. -/
theorem Rel.meets (hrel : Rel σ h h') {m m₁ m' : Reached} {vs ws : List Value}
    (hsearch : Meets h m vs m₁) (hvs : List.Forall₂ (Value.Rel σ) vs ws) (hm : Reached.Rel σ m m') :
    ∃ m₁', Meets h' m' ws m₁' ∧ Reached.Rel σ m₁ m₁' := by
  induction hsearch generalizing ws m' with
  | nil =>
    cases hvs
    exact ⟨m', .nil m', hm⟩
  | scalar hv _ ih =>
    cases hvs with
    | cons hvw hvs =>
      rcases hvw.refs with ⟨-, rfl⟩ | ⟨k, r, s, hv', -, -⟩
      · obtain ⟨m₁', hsearch, hm₁⟩ := ih hvs hm
        exact ⟨m₁', .scalar hv hsearch, hm₁⟩
      · cases hv.symm.trans hv'
  | met hv hr _ ih =>
    cases hvs with
    | cons hvw hvs =>
      rcases hvw.refs with ⟨hv', -⟩ | ⟨k, r, s, hv', hw, hrs⟩
      · cases hv'.symm.trans hv
      · cases hv.symm.trans hv'
        obtain ⟨m₁', hsearch, hm₁⟩ := ih hvs hm
        rw [hm.place _ _ s hrs] at hr
        exact ⟨m₁', .met hw hr hsearch, hm₁⟩
  | new hv hr _ _ ihinside ih =>
    cases hvs with
    | cons hvw hvs =>
      rcases hvw.refs with ⟨hv', -⟩ | ⟨k, r, s, hv', hw, hrs⟩
      · cases hv'.symm.trans hv
      · cases hv.symm.trans hv'
        obtain ⟨m₂', hinside, hm₂⟩ := ihinside (hrel.contents hrs) (hm.add hrs)
        obtain ⟨m₁', hsearch, hm₁⟩ := ih hvs hm₂
        rw [hm.place _ _ s hrs] at hr
        exact ⟨m₁', .new hw hr hinside hsearch, hm₁⟩

theorem Rel.reachable (hrel : Rel σ h h') {roots roots' : List Value}
    (hroots : List.Forall₂ (Value.Rel σ) roots roots') :
    Reached.Rel σ (h.reachable roots) (h'.reachable roots') := by
  obtain ⟨m, hsearch, hm⟩ := hrel.meets (h.meets_reachable roots) hroots Reached.rel_empty
  rwa [(h'.meets_reachable roots').unique hsearch]

/-! ### The copies -/

namespace Twins

variable {ρ : Renaming} {base : Heap} (htwins : Twins ρ base h h') {m m' : Reached}
  (hm : Reached.Rel (ρ.below h) m m') (hindexed : m.Indexed)
include htwins hm hindexed

/-- Related values are moved to places that are related when the copies are there. -/
theorem moved {v w : Value} (hvw : Value.Rel (ρ.below h) v w) :
    Value.Rel (ρ.below (h.addCopies m)) (h.moved m v) (h'.moved m' w) := by
  have hext := h.addCopies_extends m
  have hle := hext.grows.below ρ
  rcases hvw.refs with ⟨hv, rfl⟩ | ⟨k, r, s, hv, hw, hrs⟩
  · rw [moved_scalar hv, moved_scalar hv]
    exact hvw.mono hle
  · have hplace := hm.place k r s hrs
    cases hr : m.place k r with
    | none =>
      rw [moved_other hv hr, moved_other hw (hplace.symm.trans hr)]
      exact hvw.mono hle
    | some i =>
      rw [moved_met hv hr, moved_met hw (hplace.symm.trans hr)]
      apply Kind.value_rel
      refine ⟨htwins.fresh k i, ?_⟩
      rw [hext.count]
      exact Nat.add_lt_add_left (hindexed.lt_size hr) _

theorem addCopies : Twins ρ base (h.addCopies m) (h'.addCopies m') := by
  have hext := h.addCopies_extends m
  have hext' : h'.Extends (fun k => (m.order k).size) (h'.addCopies m') := by
    have hsize : (fun k => (m.order k).size) = fun k => (m'.order k).size := funext hm.size_eq
    rw [hsize]
    exact h'.addCopies_extends m'
  -- The containers at the same place in both orders.
  have hpair {k : Kind} {i : Nat} (hi : i < (m.order k).size) : ∃ r s,
      (m.order k)[i]? = some r ∧ (m'.order k)[i]? = some s ∧ (ρ.below h).rel k r s := by
    have hrel := forall₂_getElem? (hm.order k) i
    have hr := Array.getElem?_eq_getElem hi
    have hs := Array.getElem?_eq_getElem (hm.size_eq k ▸ hi)
    rw [Array.getElem?_toList, Array.getElem?_toList, hr, hs] at hrel
    cases hrel with
    | some hrel => exact ⟨_, _, hr, hs, hrel⟩
  apply htwins.extend hext hext'
  · intro i hi
    obtain ⟨r, s, hr, hs, hrs⟩ := hpair hi
    rw [grid_addCopies hr, grid_addCopies hs]
    refine ⟨(htwins.rel.grid hrs).sizes, ?_⟩
    rw [Grid.cells_mapCells, Grid.cells_mapCells, Array.toList_map, Array.toList_map,
      List.forall₂_map_left_iff, List.forall₂_map_right_iff]
    exact (htwins.rel.grid hrs).cells.imp fun _ _ hvw => htwins.moved hm hindexed hvw
  · intro i hi
    obtain ⟨r, s, hr, hs, hrs⟩ := hpair hi
    rw [dict_addCopies hr, dict_addCopies hs]
    intro key
    rw [((h.dict r).mapValues_equiv _).getElem?_eq, ((h'.dict s).mapValues_equiv _).getElem?_eq]
    exact (htwins.rel.dict hrs).map (fun _ _ hvw => htwins.moved hm hindexed hvw) key

end Twins

end Heap

/-! ### Snapshots -/

def Snapshot.links (s : Snapshot) : Links :=
  ⟨s.code, s.returns, s.resume, s.program⟩

/-- Snapshots that are the same but for what their machines are compared by. -/
structure Snapshot.Twins (N : Numbering) (σ : Renaming) (s s' : Snapshot) : Prop where
  rest : s' = { s with
    scope := s'.scope, data := s'.data, code := s'.code, returns := s'.returns
    resume := s'.resume, program := s'.program }
  links : s.links.Rel N s'.links
  scope : Scope.Rel σ s.scope s'.scope
  data : DataQueue.Rel σ s.data s'.data

theorem Snapshot.Twins.mono {N : Numbering} {σ τ : Renaming} (hle : σ.Le τ) {s s' : Snapshot}
    (h : s.Twins N σ s') : s.Twins N τ s' :=
  ⟨h.rest, h.links, h.scope.mono hle, h.data.mono hle⟩

namespace Machine.Twins

variable {L : Likeness} {m m' : Machine}

theorem snapshot (h : Twins L m m') :
    m.snapshot.1.Twins L.numbering (L.below m.snapshot.2.heap) m'.snapshot.1 ∧
      Twins L m.snapshot.2 m'.snapshot.2 ∧ m.heap.Grows m.snapshot.2.heap := by
  rw [m.snapshot_eq, m'.snapshot_eq]
  have hroots : List.Forall₂ (Value.Rel (L.below m.heap)) m.roots m'.roots := by
    apply List.rel_append
    · unfold Scope.values
      rw [List.forall₂_map_left_iff, List.forall₂_map_right_iff]
      exact h.scope.vars.toList.imp fun _ _ he => he.2
    · exact h.data.values
  have hm := h.heap.rel.reachable hroots
  have hindexed := m.heap.indexed_reachable m.roots
  have hgrows := (m.heap.addCopies_extends (m.heap.reachable m.roots)).grows
  refine ⟨⟨?_, h.stock.toRel, ⟨?_, ?_⟩, ?_, ?_⟩, h.withHeap (h.heap.addCopies hm hindexed) hgrows,
    hgrows⟩
  · have hrest := h.rest
    exact congrArg (fun x : Machine => { x.toSnapshot with
      scope := m'.scope.mapVars (m'.heap.moved (m'.heap.reachable m'.roots))
      data := m'.data.mapValues (m'.heap.moved (m'.heap.reachable m'.roots)) }) hrest
  · exact h.scope.vars.map fun _ _ hvw => h.heap.moved hm hindexed hvw
  · exact h.scope.constants.mono fun _ _ => .mono (hgrows.below L.refs)
  · change List.Forall₂ _ (m.data.values.map _).toList (m'.data.values.map _).toList
    rw [Array.toList_map, Array.toList_map, List.forall₂_map_left_iff, List.forall₂_map_right_iff]
    exact h.data.values.imp fun _ _ hvw => h.heap.moved hm hindexed hvw
  · exact h.data.cursor

theorem restore (h : Twins L m m') {s s' : Snapshot}
    (hs : s.Twins L.numbering (L.below m.heap) s') : Twins L (m.restore s) (m'.restore s') := by
  refine ⟨?_, ⟨hs.links, h.random, h.clock, hs.scope, hs.data, h.heap⟩, h.uniform.functions,
    h.uniform.commands⟩
  have hmachine := congrArg (fun x : Machine => x.restore s') h.rest
  have hsnapshot := congrArg (fun x : Snapshot => ({ m with
    heap := m'.heap, random := m'.random, clock := m'.clock } : Machine).restore x) hs.rest
  exact hmachine.trans hsnapshot

end Machine.Twins

end LineBasic
