import LineBasic.Proofs.CopyRuns
import LineBasic.Proofs.Elements

/-!
# Copies have the shape of what they copy

Values hold other values through the cells of arrays and the entries of maps, so a path of cells and
entries leads from a value to another one, or nowhere. Main statement: a copy is built from new
containers only, every path leads in it to the copy of what the path leads to in the original, and
two paths meet in the copy exactly if they meet in the original. This holds for every heap, however
its containers hold each other, and between the values that are copied together.
-/

namespace LineBasic

set_option autoImplicit false

/-- A way from a container to a value that it holds. -/
inductive Link where
  | cell (offset : Nat)
  | entry (key : String)
deriving DecidableEq, Repr

/-- The element of a value that a link stands for, if the value is a container of that kind. -/
def Value.slot? : Value → Link → Option Slot
  | .array r, .cell offset => some (.cell r offset)
  | .map r, .entry key => some (.entry r key)
  | _, _ => none

namespace Heap

/-- What a path leads to from a value. -/
def follow? (h : Heap) : Value → List Link → Option Value
  | v, [] => some v
  | v, link :: path => ((v.slot? link).bind h.element?).bind (h.follow? · path)

/-- The value `w` stands in `h'` for the value `v` of `h`: it is the same or a new container of the
same kind with the same sizes or keys. -/
inductive Copied (h h' : Heap) : Value → Value → Prop where
  | scalar {v : Value} (hv : v.ref? = none) : Copied h h' v v
  | array {r s : Ref} (hnew : h.count .array ≤ s) (hlive : s < h'.count .array)
      (hsizes : (h'.grid s).sizes = (h.grid r).sizes)
      (hcells : (h'.grid s).size = (h.grid r).size) : Copied h h' (.array r) (.array s)
  | map {r s : Ref} (hnew : h.count .map ≤ s) (hlive : s < h'.count .map)
      (hkeys : (h'.dict s).entries.keys = (h.dict r).entries.keys) : Copied h h' (.map r) (.map s)

theorem Copied.new {h h' : Heap} {v w : Value} (hc : h.Copied h' v w) {k : Kind} {s : Ref}
    (hs : w.ref? = some (k, s)) : h.count k ≤ s ∧ s < h'.count k := by
  cases hc with
  | scalar hscalar => exact nomatch hscalar.symm.trans hs
  | array hnew hlive => cases hs; exact ⟨hnew, hlive⟩
  | map hnew hlive => cases hs; exact ⟨hnew, hlive⟩

/-- The values `roots` of `h` are copied to their images under `move` in `h'`. -/
structure IsCopy (h : Heap) (roots : List Value) (move : Value → Value) (h' : Heap) : Prop where
  /-- No container that was there is changed. -/
  grids : ∀ r < h.count .array, h'.grid r = h.grid r
  dicts : ∀ r < h.count .map, h'.dict r = h.dict r
  /-- Paths lead to the copies of what they lead to. -/
  paths : ∀ root ∈ roots, ∀ path, h'.follow? (move root) path = (h.follow? root path).map move
  /-- Everything that is reached has a copy of its kind, made of new containers. -/
  copied : ∀ root ∈ roots, ∀ path v, h.follow? root path = some v → h.Copied h' v (move v)
  /-- Whatever is reached from the copies is new or no container. -/
  fresh : ∀ root ∈ roots, ∀ path w, h'.follow? (move root) path = some w →
    ∀ k s, w.ref? = some (k, s) → h.count k ≤ s ∧ s < h'.count k
  /-- Two paths meet in the copy exactly if they meet in the original. -/
  meets : ∀ root ∈ roots, ∀ root' ∈ roots, ∀ path path',
    h'.follow? (move root) path = h'.follow? (move root') path' ↔
      h.follow? root path = h.follow? root' path'

section

variable {h : Heap} {m : Reached} {v w : Value} {link : Link} {slot : Slot}

theorem holder_of_slot? (hslot : v.slot? link = some slot) : holder slot = v := by
  cases v with
  | array r =>
    cases link with
    | cell offset => cases hslot; rfl
    | entry key => cases hslot
  | map r =>
    cases link with
    | cell offset => cases hslot
    | entry key => cases hslot; rfl
  | _ => cases hslot

theorem contents_scalar (hv : v.ref? = none) : h.contents v = [] := by
  cases v with
  | array => cases hv
  | map => cases hv
  | _ => rfl

theorem element?_addCopies (hm : m.Indexed) (hv : m.Has v) :
    (((h.moved m v).slot? link).bind (h.addCopies m).element?) =
      ((v.slot? link).bind h.element?).map (h.moved m) := by
  cases href : v.ref? with
  | none =>
    have hnone : v.slot? link = none := by
      cases v <;> cases href <;> rfl
    rw [moved_scalar href, hnone]
    rfl
  | some c =>
    obtain ⟨k, r⟩ := c
    obtain ⟨i, hi⟩ := Option.isSome_iff_exists.mp (hv k r href)
    have hplace := (hm k r i).mp hi
    rw [moved_met href hi, Value.eq_of_ref? href]
    cases k with
    | array =>
      cases link with
      | cell offset =>
        change ((h.addCopies m).grid _).cells[offset]? = ((h.grid r).cells[offset]?).map _
        rw [grid_addCopies hplace, Grid.cells_mapCells]
        exact Array.getElem?_map
      | entry key => rfl
    | map =>
      cases link with
      | cell offset => rfl
      | entry key =>
        change ((h.addCopies m).dict _).entries[key]? = ((h.dict r).entries[key]?).map _
        rw [dict_addCopies hplace, ((h.dict r).mapValues_equiv _).getElem?_eq]
        exact Std.TreeMap.getElem?_map

/-- The containers that a search met, with all that they hold, are copied along every path. -/
theorem follow?_addCopies (hm : m.Indexed)
    (hclosed : ∀ v, m.Has v → ∀ w ∈ h.contents v, m.Has w) (hv : m.Has v) (path : List Link) :
    (h.addCopies m).follow? (h.moved m v) path = (h.follow? v path).map (h.moved m) ∧
      ∀ w, h.follow? v path = some w → m.Has w := by
  induction path generalizing v with
  | nil => exact ⟨rfl, fun w hw => Option.some.inj hw ▸ hv⟩
  | cons link path ih =>
    rw [follow?, follow?, element?_addCopies hm hv]
    cases hw : (v.slot? link).bind h.element? with
    | none => exact ⟨rfl, nofun⟩
    | some w =>
      obtain ⟨slot, hslot, helement⟩ := Option.bind_eq_some_iff.mp hw
      have hmem := mem_contents helement
      rw [holder_of_slot? hslot] at hmem
      exact ih (hclosed v hv w hmem)

theorem copied_moved (hm : m.Indexed) (hv : m.Has v) :
    h.Copied (h.addCopies m) v (h.moved m v) := by
  cases href : v.ref? with
  | none =>
    rw [moved_scalar href]
    exact .scalar href
  | some c =>
    obtain ⟨k, r⟩ := c
    obtain ⟨i, hi⟩ := Option.isSome_iff_exists.mp (hv k r href)
    have hplace := (hm k r i).mp hi
    have hlive : h.count k + i < (h.addCopies m).count k := by
      rw [(h.addCopies_extends m).count k]
      exact Nat.add_lt_add_left (Array.getElem?_eq_some_iff.mp hplace).1 _
    rw [moved_met href hi, Value.eq_of_ref? href]
    cases k with
    | array =>
      refine .array (Nat.le_add_right _ _) hlive ?_ ?_
      · rw [grid_addCopies hplace]
        rfl
      · rw [grid_addCopies hplace, Grid.size, Grid.cells_mapCells]
        exact Array.size_map
    | map =>
      refine .map (Nat.le_add_right _ _) hlive ?_
      rw [dict_addCopies hplace, ((h.dict r).mapValues_equiv _).keys_eq]
      exact Std.TreeMap.keys_map

theorem ref?_moved (hm : m.Indexed) (hv : m.Has v) {k : Kind} {r : Ref}
    (href : v.ref? = some (k, r)) :
    ∃ i, (m.order k)[i]? = some r ∧ (h.moved m v).ref? = some (k, h.count k + i) := by
  obtain ⟨i, hi⟩ := Option.isSome_iff_exists.mp (hv k r href)
  rw [moved_met href hi, ref?_value]
  exact ⟨i, (hm k r i).mp hi, rfl⟩

theorem moved_injective (hm : m.Indexed) (hv : m.Has v) (hw : m.Has w)
    (heq : h.moved m v = h.moved m w) : v = w := by
  cases hrv : v.ref? with
  | none =>
    rw [moved_scalar hrv] at heq
    cases hrw : w.ref? with
    | none => rwa [moved_scalar hrw] at heq
    | some d =>
      obtain ⟨i, -, hcopy⟩ := ref?_moved (h := h) hm hw hrw
      rw [← heq, hrv] at hcopy
      cases hcopy
  | some c =>
    obtain ⟨k, r⟩ := c
    obtain ⟨i, hi, hcopy⟩ := ref?_moved (h := h) hm hv hrv
    cases hrw : w.ref? with
    | none =>
      rw [heq, moved_scalar hrw, hrw] at hcopy
      cases hcopy
    | some d =>
      obtain ⟨k', r'⟩ := d
      obtain ⟨j, hj, hcopy'⟩ := ref?_moved (h := h) hm hw hrw
      rw [heq, hcopy', Option.some_inj, Prod.mk.injEq] at hcopy
      obtain ⟨rfl, hplace⟩ := hcopy
      obtain rfl : j = i := Nat.add_left_cancel hplace
      obtain rfl := Option.some.inj (hi.symm.trans hj)
      rw [Value.eq_of_ref? hrv, Value.eq_of_ref? hrw]

end

/-- The search meets everything that paths lead to, so all of it is copied. -/
theorem isCopy_addCopies (h : Heap) (roots : List Value) :
    h.IsCopy roots (h.moved (h.reachable roots)) (h.addCopies (h.reachable roots)) := by
  have hm := h.indexed_reachable roots
  have hroots {root : Value} (hroot : root ∈ roots) : (h.reachable roots).Has root :=
    has_reachable hroot
  have hclosed (v : Value) (hv : (h.reachable roots).Has v) (w : Value) (hw : w ∈ h.contents v) :
      (h.reachable roots).Has w := by
    cases href : v.ref? with
    | none =>
      rw [contents_scalar href] at hw
      cases hw
    | some c =>
      rw [Value.eq_of_ref? href] at hw
      exact has_contents (hv c.1 c.2 href) hw
  generalize h.reachable roots = m at hm hroots hclosed ⊢
  have hfollow {root : Value} (hroot : root ∈ roots) (path : List Link) :=
    follow?_addCopies hm hclosed (hroots hroot) path
  have hcopied {root : Value} (hroot : root ∈ roots) {path : List Link} {v : Value}
      (hv : h.follow? root path = some v) : h.Copied (h.addCopies m) v (h.moved m v) :=
    copied_moved hm ((hfollow hroot path).2 v hv)
  refine ⟨(h.addCopies_extends m).grid, (h.addCopies_extends m).dict,
    fun root hroot path => (hfollow hroot path).1, fun root hroot path v hv => hcopied hroot hv,
    ?_, ?_⟩
  · intro root hroot path w hw k s hs
    rw [(hfollow hroot path).1] at hw
    obtain ⟨v, hv, rfl⟩ := Option.map_eq_some_iff.mp hw
    exact (hcopied hroot hv).new hs
  · intro root hroot root' hroot' path path'
    rw [(hfollow hroot path).1, (hfollow hroot' path').1]
    refine ⟨fun heq => ?_, fun heq => congrArg _ heq⟩
    cases hv : h.follow? root path with
    | none =>
      rw [hv] at heq
      exact (Option.map_eq_none_iff.mp heq.symm).symm
    | some v =>
      rw [hv] at heq
      obtain ⟨w, hw, hmoved⟩ := Option.map_eq_some_iff.mp heq.symm
      have hsame := moved_injective hm ((hfollow hroot' path').2 w hw) ((hfollow hroot path).2 v hv)
        hmoved
      rw [hw, hsame]

end Heap

/-- A copy of a value and copies of several values together have the shape of what is copied: all
their containers are new, paths lead in them to the copies of what they lead to in the original, and
meet where they meet there. No container of the heap is changed. The copy comes to its end by itself:
the fuel that it is given is more than it needs. -/
theorem copy_isomorphic (h : Heap) :
    (∀ v, ∃ move : Value → Value, (h.copy v).1 = move v ∧ h.IsCopy [v] move (h.copy v).2) ∧
    (∀ roots, (h.copyAll roots).1 = roots.map (h.copyAll roots).2.image ∧
      h.IsCopy roots (h.copyAll roots).2.image (h.copyAll roots).2.heap) ∧
    ∀ v fuel, h.depth ≤ fuel →
      (h.deepCopy fuel v).run { heap := h } = (h.deepCopy h.depth v).run { heap := h } := by
  refine ⟨fun v => ⟨h.moved (h.reachable [v]), ?_, ?_⟩, fun roots => ?_, fun v fuel hfuel => ?_⟩
  · rw [h.copy_eq]
  · rw [h.copy_eq]
    exact h.isCopy_addCopies [v]
  · obtain ⟨hvalues, himage, hheap⟩ := h.copyAll_eq roots
    rw [hvalues, himage, hheap]
    exact ⟨rfl, h.isCopy_addCopies roots⟩
  · obtain ⟨c, -, hrun⟩ := h.run_deepCopy v
    rw [hrun fuel hfuel, hrun h.depth (Nat.le_refl _)]

end LineBasic
