import LineBasic.Machine.Functions
import LineBasic.Machine.Step
import LineBasic.Proofs.Copies
import LineBasic.Proofs.Elements
import LineBasic.Proofs.WholeNumbers

/-!
# Addresses of array cells

Sizes and indices are doubles, but those that arrays accept are the doubles of natural numbers, so
addressing is arithmetic on natural numbers. The offset of a cell is computed from the first index
on; it is the number of cells in front when the last index runs fastest. Main statement: lists of
indices within the sizes and the cells of an array correspond one to one, in order.
-/

namespace LineBasic

set_option autoImplicit false

namespace Grid

/-- Natural numbers as values. -/
def numbers (ns : List Nat) : List Value :=
  ns.map fun n => .number (Float.ofNat n)

theorem numbers_cons (n : Nat) (ns : List Nat) :
    numbers (n :: ns) = .number (Float.ofNat n) :: numbers ns := rfl

/-- Sizes that an array can have. -/
structure Sizes (sizes : List Nat) : Prop where
  nonempty : sizes ≠ []
  positive : ∀ n ∈ sizes, 1 ≤ n
  fits : sizes.prod ≤ 2 ^ 24

/-- One index for each size, counted from one. -/
def Within (indices sizes : List Nat) : Prop :=
  List.Forall₂ (fun i size => 1 ≤ i ∧ i ≤ size) indices sizes

/-- The cells in front of a cell when the last index runs fastest: a step of an index passes all
cells that the indices behind it select. -/
def place : List Nat → List Nat → Nat
  | _ :: sizes, i :: indices => (i - 1) * sizes.prod + place sizes indices
  | _, _ => 0

/-! ### The order of cells -/

section Place

variable {sizes t u : List Nat}

theorem place_lt (h : Within t sizes) : place sizes t < sizes.prod := by
  induction h with
  | nil => exact Nat.one_pos
  | @cons i size t sizes hi _ ih =>
    have hrow : (i - 1 + 1) * sizes.prod ≤ size * sizes.prod :=
      Nat.mul_le_mul_right _ (by omega)
    rw [Nat.add_mul, Nat.one_mul] at hrow
    rw [List.prod_cons, place]
    omega

theorem place_lt_place (ht : Within t sizes) (hu : Within u sizes) (h : t < u) :
    place sizes t < place sizes u := by
  induction ht generalizing u with
  | nil =>
    cases hu
    exact absurd h (List.not_lt_nil [])
  | @cons i size t sizes hi ht ih =>
    cases hu with
    | @cons j _ u _ hj hu =>
      rw [place, place]
      rcases List.cons_lt_cons_iff.mp h with hlt | ⟨rfl, hlt⟩
      · have hrow : (i - 1 + 1) * sizes.prod ≤ (j - 1) * sizes.prod :=
          Nat.mul_le_mul_right _ (by omega)
        rw [Nat.add_mul, Nat.one_mul] at hrow
        have := place_lt ht
        omega
      · exact Nat.add_lt_add_left (ih hu hlt) _

theorem place_lt_place_iff (ht : Within t sizes) (hu : Within u sizes) :
    place sizes t < place sizes u ↔ t < u := by
  refine ⟨fun hlt => lt_of_not_ge fun hle => ?_, place_lt_place ht hu⟩
  rcases hle.lt_or_eq with hgt | rfl
  · exact hlt.asymm (place_lt_place hu ht hgt)
  · exact hlt.false

theorem place_injective (ht : Within t sizes) (hu : Within u sizes)
    (h : place sizes t = place sizes u) : t = u := by
  rcases lt_trichotomy t u with hlt | heq | hlt
  · exact absurd h (place_lt_place ht hu hlt).ne
  · exact heq
  · exact absurd h (place_lt_place hu ht hlt).ne'

theorem exists_place (sizes : List Nat) {offset : Nat} (h : offset < sizes.prod) :
    ∃ t, Within t sizes ∧ place sizes t = offset := by
  induction sizes generalizing offset with
  | nil => exact ⟨[], .nil, by rw [List.prod_nil] at h; simp only [place]; omega⟩
  | cons size sizes ih =>
    rw [List.prod_cons] at h
    have hpos : 0 < sizes.prod := Nat.pos_of_ne_zero fun hzero => by simp [hzero] at h
    obtain ⟨t, ht, hplace⟩ := ih (Nat.mod_lt offset hpos)
    have hrow : offset / sizes.prod < size := Nat.div_lt_of_lt_mul (Nat.mul_comm size _ ▸ h)
    refine ⟨(offset / sizes.prod + 1) :: t, .cons ⟨Nat.succ_pos _, hrow⟩ ht, ?_⟩
    rw [place, hplace, Nat.add_sub_cancel, Nat.mul_comm]
    exact Nat.div_add_mod offset sizes.prod

end Place

/-! ### Sizes -/

theorem volume_eq (sizes : List Nat) : volume sizes = sizes.prod :=
  List.prod_eq_foldl.symm

theorem exact_of_le {n : Nat} (h : n ≤ 2 ^ 24) : n < 2 * Number.Binary.leadingBit :=
  Nat.lt_of_le_of_lt h (by decide)

theorem Sizes.le {sizes : List Nat} (h : Sizes sizes) {n : Nat} (hn : n ∈ sizes) : n ≤ 2 ^ 24 := by
  have hpos : 0 < sizes.prod := List.prod_pos fun m hm => h.positive m hm
  exact (Nat.le_of_dvd hpos (List.dvd_prod hn)).trans h.fits

theorem readSizes_eq_ok {vs : List Value} {total : Nat} {ns : List Nat}
    (h : readSizes vs total = .ok ns) (hpos : 0 < total) (htotal : total ≤ 2 ^ 24) :
    vs = numbers ns ∧ (∀ n ∈ ns, 1 ≤ n) ∧ total * ns.prod ≤ 2 ^ 24 := by
  induction vs generalizing total ns with
  | nil =>
    cases h
    exact ⟨rfl, by simp, by simpa using htotal⟩
  | cons v vs ih =>
    cases v with
    | number x =>
      unfold readSizes at h
      split at h
      · rename_i n hn
        split at h
        · cases h
        · rename_i hfits
          have hfits : total * (n + 1) ≤ 2 ^ 24 := Nat.le_of_not_lt hfits
          cases hrest : readSizes vs (total * (n + 1)) with
          | error e => rw [hrest] at h; cases h
          | ok ms =>
            rw [hrest] at h
            cases h
            obtain ⟨rfl, hpositive, hprod⟩ := ih hrest (Nat.mul_pos hpos n.succ_pos) hfits
            have hsmall := (Nat.le_mul_of_pos_left (n + 1) hpos).trans hfits
            refine ⟨?_, ?_, ?_⟩
            · rw [Number.eq_ofNat hn n.succ_pos (exact_of_le hsmall)]
              rfl
            · exact List.forall_mem_cons.mpr ⟨n.succ_pos, hpositive⟩
            · rwa [List.prod_cons, ← Nat.mul_assoc]
      · cases h
    | _ => cases h

theorem readSizes_numbers {ns : List Nat} {total : Nat} (hsizes : ∀ n ∈ ns, 1 ≤ n)
    (hfits : total * ns.prod ≤ 2 ^ 24) (htotal : 0 < total) :
    readSizes (numbers ns) total = .ok ns := by
  induction ns generalizing total with
  | nil => rfl
  | cons n ns ih =>
    obtain ⟨n, rfl⟩ : ∃ m, n = m + 1 := ⟨n - 1, by have := hsizes n List.mem_cons_self; omega⟩
    have hsizes := (List.forall_mem_cons.mp hsizes).2
    rw [List.prod_cons, ← Nat.mul_assoc] at hfits
    have hprod : 0 < ns.prod := List.prod_pos hsizes
    have hpart : total * (n + 1) ≤ 2 ^ 24 := (Nat.le_mul_of_pos_right _ hprod).trans hfits
    have hsmall : n + 1 ≤ 2 ^ 24 := (Nat.le_mul_of_pos_left _ htotal).trans hpart
    have hsum : ¬ maxCells < total * (n + 1) := Nat.not_lt.mpr hpart
    rw [numbers_cons, readSizes, Number.nat?_ofNat (exact_of_le hsmall)]
    dsimp only
    rw [if_neg hsum, ih hsizes hfits (Nat.mul_pos htotal n.succ_pos)]
    rfl

/-- A new array of these sizes. -/
def zeros (sizes : List Nat) : Grid :=
  ⟨sizes, Array.replicate sizes.prod (.number 0)⟩

theorem ofSizes_eq_ok_iff {vs : List Value} {g : Grid} :
    ofSizes vs = .ok g ↔ ∃ sizes, vs = numbers sizes ∧ Sizes sizes ∧ g = zeros sizes := by
  unfold ofSizes
  constructor
  · intro h
    split at h
    · cases h
    · rename_i hempty
      cases hread : readSizes vs 1 with
      | error e => rw [hread] at h; cases h
      | ok sizes =>
        rw [hread] at h
        obtain ⟨rfl, hpositive, hfits⟩ := readSizes_eq_ok hread Nat.one_pos (by decide)
        rw [Nat.one_mul] at hfits
        refine ⟨sizes, rfl, ⟨?_, hpositive, hfits⟩, ?_⟩
        · rintro rfl
          exact hempty rfl
        · rw [zeros, ← volume_eq]
          exact (Except.ok.inj h).symm
  · rintro ⟨sizes, rfl, h, rfl⟩
    have hread := readSizes_numbers h.positive (Nat.one_mul _ ▸ h.fits) Nat.one_pos
    rw [if_neg, hread, zeros, ← volume_eq]
    · rfl
    · rw [numbers, List.isEmpty_map, List.isEmpty_iff]
      exact h.nonempty

/-! ### Indices -/

/-- The offset is computed with one multiplication for each index, the cells in front by sums of
products. -/
theorem offsetFrom_numbers {sizes t : List Nat} (hsizes : ∀ n ∈ sizes, n ≤ 2 ^ 24)
    (h : Within t sizes) (offset : Nat) :
    offsetFrom offset (numbers t) sizes = .ok (offset * sizes.prod + place sizes t) := by
  induction h generalizing offset with
  | nil => simp [numbers, offsetFrom, place]
  | @cons i size t sizes hi _ ih =>
    obtain ⟨i, rfl⟩ : ∃ m, i = m + 1 := ⟨i - 1, by omega⟩
    obtain ⟨hsize, hsizes⟩ := List.forall_mem_cons.mp hsizes
    rw [numbers_cons, offsetFrom, Number.nat?_ofNat (exact_of_le (hi.2.trans hsize))]
    dsimp only
    rw [if_pos (by omega), ih hsizes, place, List.prod_cons, Nat.add_sub_cancel]
    congr 1
    ring

theorem offsetFrom_eq_ok {sizes : List Nat} {vs : List Value} {offset found : Nat}
    (hsizes : ∀ n ∈ sizes, n ≤ 2 ^ 24) (hlength : vs.length = sizes.length)
    (h : offsetFrom offset vs sizes = .ok found) : ∃ t, vs = numbers t ∧ Within t sizes := by
  induction sizes generalizing vs offset with
  | nil => exact ⟨[], List.eq_nil_of_length_eq_zero hlength, .nil⟩
  | cons size sizes ih =>
    obtain ⟨hsize, hsizes⟩ := List.forall_mem_cons.mp hsizes
    cases vs with
    | nil => cases hlength
    | cons v vs =>
      cases v with
      | number x =>
        unfold offsetFrom at h
        split at h
        · rename_i n hn
          split at h
          · rename_i hlt
            obtain ⟨t, rfl, ht⟩ := ih hsizes (Nat.succ.inj hlength) h
            refine ⟨(n + 1) :: t, ?_, .cons ⟨n.succ_pos, hlt⟩ ht⟩
            rw [Number.eq_ofNat hn n.succ_pos (exact_of_le (Nat.le_trans hlt hsize))]
            rfl
          · cases h
        · cases h
      | _ => cases h

theorem offset_eq_ok_iff {g : Grid} (h : Sizes g.sizes) {vs : List Value} {offset : Nat} :
    g.offset vs = .ok offset ↔
      ∃ t, vs = numbers t ∧ Within t g.sizes ∧ offset = place g.sizes t := by
  have hsizes : ∀ n ∈ g.sizes, n ≤ 2 ^ 24 := fun n hn => h.le hn
  unfold Grid.offset
  constructor
  · intro hoffset
    split at hoffset
    · cases hoffset
    · rename_i hlength
      obtain ⟨t, rfl, ht⟩ := offsetFrom_eq_ok hsizes (not_not.mp hlength) hoffset
      rw [offsetFrom_numbers hsizes ht, Nat.zero_mul, Nat.zero_add] at hoffset
      exact ⟨t, rfl, ht, (Except.ok.inj hoffset).symm⟩
  · rintro ⟨t, rfl, ht, rfl⟩
    have hlength : (numbers t).length = g.sizes.length := by
      rw [numbers, List.length_map, ht.length_eq]
    rw [if_neg (not_not.mpr hlength), offsetFrom_numbers hsizes ht, Nat.zero_mul, Nat.zero_add]

end Grid

namespace Heap

/-- The heap has an array of these sizes. -/
structure HasArray (h : Heap) (r : Ref) (sizes : List Nat) : Prop where
  live : r < h.grids.size
  sizes_eq : (h.grid r).sizes = sizes
  size_eq : (h.grid r).size = sizes.prod
  valid : Grid.Sizes sizes

section

variable {h : Heap} {r : Ref} {sizes t : List Nat}

open Grid

namespace HasArray

variable (ha : h.HasArray r sizes)
include ha

theorem locate_eq_ok_iff {access : Access} {vs : List Value} {slot : Slot} :
    h.locate access (.array r) vs = .ok slot ↔
      ∃ t, vs = numbers t ∧ Within t sizes ∧ slot = .cell r (place sizes t) := by
  obtain ⟨-, rfl, -, hvalid⟩ := ha
  rw [locate_array_eq_ok_iff]
  constructor
  · rintro ⟨offset, hoffset, rfl⟩
    obtain ⟨t, rfl, ht, rfl⟩ := (offset_eq_ok_iff hvalid).mp hoffset
    exact ⟨t, rfl, ht, rfl⟩
  · rintro ⟨t, rfl, ht, rfl⟩
    exact ⟨_, (offset_eq_ok_iff hvalid).mpr ⟨t, rfl, ht, rfl⟩, rfl⟩

theorem self : h.HasArray r (h.grid r).sizes := by
  rw [ha.sizes_eq]
  exact ha

theorem locate_numbers (access : Access) (ht : Within t sizes) :
    h.locate access (.array r) (numbers t) = .ok (.cell r (place sizes t)) :=
  ha.locate_eq_ok_iff.mpr ⟨t, rfl, ht, rfl⟩

theorem getElement_numbers (ht : Within t sizes) :
    h.getElement (.array r) (numbers t) = .ok (h.read (.cell r (place sizes t))) := by
  rw [Heap.getElement, ha.locate_numbers _ ht]
  rfl

theorem setElement_numbers (ht : Within t sizes) (v : Value) :
    h.setElement (.array r) (numbers t) v = .ok (h.write (.cell r (place sizes t)) v) := by
  rw [Heap.setElement, ha.locate_numbers _ ht]
  rfl

theorem existsUnique_locate (access : Access) {offset : Nat} (hoffset : offset < sizes.prod) :
    ∃! vs, h.locate access (.array r) vs = .ok (.cell r offset) := by
  obtain ⟨t, ht, rfl⟩ := exists_place sizes hoffset
  refine ⟨numbers t, ha.locate_numbers access ht, fun vs hvs => ?_⟩
  obtain ⟨u, rfl, hu, hslot⟩ := ha.locate_eq_ok_iff.mp hvs
  rw [place_injective ht hu (Slot.cell.inj hslot).2]

theorem writable (ht : Within t sizes) : h.Writable (.cell r (place sizes t)) := by
  change place sizes t < (h.grid r).size
  rw [ha.size_eq]
  exact place_lt ht

theorem write (slot : Slot) (v : Value) : (h.write slot v).HasArray r sizes := by
  obtain ⟨hsizes, hsize⟩ := h.shape_write slot v r
  refine ⟨?_, hsizes.trans ha.sizes_eq, hsize.trans ha.size_eq, ha.valid⟩
  have hcount : (h.write slot v).grids.size = h.grids.size := h.count_write slot v .array
  rw [hcount]
  exact ha.live

end HasArray

theorem dim_numbers (h : Heap) (hsizes : Sizes sizes) :
    h.dim (numbers sizes) = .ok (h.newArray (zeros sizes)) ∧
      (h.newArray (zeros sizes)).2.HasArray h.grids.size sizes := by
  have hnew : ofSizes (numbers sizes) = .ok (zeros sizes) :=
    ofSizes_eq_ok_iff.mpr ⟨sizes, rfl, hsizes, rfl⟩
  have hgrid : (h.newArray (zeros sizes)).2.grid h.grids.size = zeros sizes := by
    simp [newArray, grid]
  refine ⟨by rw [Heap.dim, hnew], ?_, ?_, ?_, hsizes⟩
  · simp [newArray]
  · rw [hgrid]
    rfl
  · rw [hgrid]
    exact Array.size_replicate

theorem dim_eq_ok_iff (h : Heap) {vs : List Value} :
    (∃ created, h.dim vs = .ok created) ↔ ∃ sizes, vs = numbers sizes ∧ Sizes sizes := by
  constructor
  · rintro ⟨created, hdim⟩
    unfold Heap.dim at hdim
    split at hdim
    · rename_i g hg
      obtain ⟨sizes, rfl, hsizes, -⟩ := ofSizes_eq_ok_iff.mp hg
      exact ⟨sizes, rfl, hsizes⟩
    · cases hdim
  · rintro ⟨sizes, rfl, hsizes⟩
    exact ⟨_, (h.dim_numbers hsizes).1⟩

end

/-! ### Heaps whose arrays have their cells -/

/-- Every array has sizes that an array can have, and the cells for them. -/
def Shaped (h : Heap) : Prop :=
  ∀ r < h.grids.size, h.HasArray r (h.grid r).sizes

namespace Shaped

variable {h : Heap} (hs : h.Shaped)
include hs

theorem write (slot : Slot) (v : Value) : (h.write slot v).Shaped := by
  intro r hr
  have hlive : r < h.grids.size := Nat.lt_of_lt_of_eq hr (h.count_write slot v .array)
  rw [(h.shape_write slot v r).1]
  exact (hs r hlive).write slot v

theorem newMap : h.newMap.2.Shaped :=
  fun r hr => ⟨hr, rfl, (hs r hr).size_eq, (hs r hr).valid⟩

theorem of_extends {added : Kind → Nat} {h' : Heap} (hext : h.Extends added h')
    (hnew : ∀ i < added .array,
      h'.HasArray (h.count .array + i) (h'.grid (h.count .array + i)).sizes) : h'.Shaped := by
  intro r hr
  by_cases hold : r < h.count .array
  · have ha := hs r hold
    have hgrid := hext.grid r hold
    exact ⟨hr, rfl, by rw [hgrid]; exact ha.size_eq, by rw [hgrid]; exact ha.valid⟩
  · have hcount : h'.grids.size = h.count .array + added .array := hext.count .array
    obtain ⟨i, rfl⟩ := Nat.exists_eq_add_of_le (Nat.le_of_not_lt hold)
    exact hnew i (by omega)

theorem dim {sizes : List Value} {r : Value × Heap} (hdim : h.dim sizes = .ok r) : r.2.Shaped := by
  obtain ⟨ns, rfl, hns⟩ := h.dim_eq_ok_iff.mp ⟨r, hdim⟩
  obtain ⟨hnew, ha⟩ := h.dim_numbers hns
  obtain rfl := Except.ok.inj (hdim.symm.trans hnew)
  refine hs.of_extends (h.newArray_extends _) fun i hi => ?_
  obtain rfl : i = 0 := Nat.lt_one_iff.mp hi
  exact ha.self

theorem addCopies {m : Reached}
    (hlive : ∀ (i : Nat) r, (m.order .array)[i]? = some r → r < h.count .array) :
    (h.addCopies m).Shaped := by
  have hext := h.addCopies_extends m
  refine hs.of_extends hext fun i hi => ?_
  obtain ⟨r, hr⟩ : ∃ r, (m.order .array)[i]? = some r := ⟨_, Array.getElem?_eq_getElem hi⟩
  have ha := hs r (hlive i r hr)
  have hcount : (h.addCopies m).grids.size = h.count .array + (m.order .array).size :=
    hext.count .array
  rw [grid_addCopies hr]
  refine ⟨hcount ▸ Nat.add_lt_add_left hi _, by rw [grid_addCopies hr], ?_, ha.valid⟩
  rw [grid_addCopies hr, Grid.size, Grid.cells_mapCells]
  exact Array.size_map.trans ha.size_eq

end Shaped

end Heap

open Grid in
/-- Arrays are addressed row by row. An array is made exactly for sizes from one up with at most
`2 ^ 24` cells in all, and it has as many cells as the sizes allow. Exactly the lists of whole
numbers from one to the sizes read and write cells; there is one such list for each cell, in the
order of the lists. What is written at a list is read there and nowhere else, and a write that fails
leaves the machine as it was after its indices were evaluated. -/
theorem array_addressing (h : Heap) :
    (∀ vs, (∃ created, h.dim vs = .ok created) ↔ ∃ sizes, vs = numbers sizes ∧ Sizes sizes) ∧
    (∀ sizes, Sizes sizes → ∃ h', h.dim (numbers sizes) = .ok (.array h.grids.size, h') ∧
      h'.HasArray h.grids.size sizes) ∧
    ∀ r sizes, h.HasArray r sizes →
      (∀ view : View, view.heap = h →
        Function.len view [.array r] = .ok (.number (Float.ofNat sizes.prod))) ∧
      (∀ vs, (∃ v, h.getElement (.array r) vs = .ok v) ↔ ∃ t, vs = numbers t ∧ Within t sizes) ∧
      (∀ vs v, (∃ h', h.setElement (.array r) vs v = .ok h') ↔
        ∃ t, vs = numbers t ∧ Within t sizes) ∧
      (∀ access, ∀ t, Within t sizes →
        h.locate access (.array r) (numbers t) = .ok (.cell r (place sizes t))) ∧
      (∀ access, ∀ offset < sizes.prod,
        ∃! vs, h.locate access (.array r) vs = .ok (.cell r offset)) ∧
      (∀ t u, Within t sizes → Within u sizes → (place sizes t < place sizes u ↔ t < u)) ∧
      (∀ t v, Within t sizes → ∃ h', h.setElement (.array r) (numbers t) v = .ok h' ∧
        h'.HasArray r sizes ∧ h'.getElement (.array r) (numbers t) = .ok v ∧
        ∀ u, Within u sizes → u ≠ t →
          h'.getElement (.array r) (numbers u) = h.getElement (.array r) (numbers u)) ∧
      (∀ (m : Machine) name first keys random v, m.heap = h →
        m.scope.fetch name = some (.array r) →
        (Action.evalAll first).run m = (.ok keys, { m with random := random }) →
        (Action.storeElement name ⟨[first]⟩ v).run m =
          match h.setElement (.array r) keys v with
          | .ok h' => (.ok (), { m with random := random, heap := h' })
          | .error e => (.error e, { m with random := random })) := by
  refine ⟨fun vs => h.dim_eq_ok_iff, fun sizes hsizes => ⟨_, h.dim_numbers hsizes⟩,
    fun r sizes ha => ?_⟩
  refine ⟨?_, ?_, ?_, fun access t ht => ha.locate_numbers access ht,
    fun access offset hoffset => ha.existsUnique_locate access hoffset, ?_, ?_, ?_⟩
  · rintro view rfl
    rw [Function.len, ha.size_eq]
  · intro vs
    constructor
    · rintro ⟨v, hv⟩
      obtain ⟨slot, hslot, -⟩ := Heap.getElement_eq_ok_iff.mp hv
      obtain ⟨t, rfl, ht, -⟩ := ha.locate_eq_ok_iff.mp hslot
      exact ⟨t, rfl, ht⟩
    · rintro ⟨t, rfl, ht⟩
      exact ⟨_, ha.getElement_numbers ht⟩
  · intro vs v
    constructor
    · rintro ⟨h', hset⟩
      obtain ⟨slot, hslot, -⟩ := Heap.setElement_eq_ok_iff.mp hset
      obtain ⟨t, rfl, ht, -⟩ := ha.locate_eq_ok_iff.mp hslot
      exact ⟨t, rfl, ht⟩
    · rintro ⟨t, rfl, ht⟩
      exact ⟨_, ha.setElement_numbers ht v⟩
  · exact fun t u ht hu => place_lt_place_iff ht hu
  · intro t v ht
    refine ⟨_, ha.setElement_numbers ht v, ha.write _ v, ?_, fun u hu hne => ?_⟩
    · rw [(ha.write _ v).getElement_numbers ht, Heap.read_write (ha.writable ht), if_pos rfl]
    · have hslot : Slot.cell r (place sizes t) ≠ .cell r (place sizes u) := fun heq =>
        hne (place_injective ht hu (Slot.cell.inj heq).2).symm
      rw [(ha.write _ v).getElement_numbers hu, ha.getElement_numbers hu,
        Heap.read_write (ha.writable ht), if_neg hslot]
  · rintro m name first keys random v rfl hname hkeys
    exact Action.run_storeElement_single hname rfl hkeys v

open Grid in
theorem array_addressing_matrix : ∃ h : Heap,
    (Heap.mk #[] #[]).dim (numbers [2, 3]) = .ok (.array 0, h) ∧ h.HasArray 0 [2, 3] ∧
    ∃ h', h.setElement (.array 0) (numbers [2, 1]) (.bool true) = .ok h' ∧
      h'.getElement (.array 0) (numbers [2, 1]) = .ok (.bool true) ∧
      h'.getElement (.array 0) (numbers [1, 3]) = h.getElement (.array 0) (numbers [1, 3]) ∧
      h.locate .reading (.array 0) (numbers [2, 1]) = .ok (.cell 0 3) := by
  obtain ⟨h, hdim, ha⟩ := (array_addressing ⟨#[], #[]⟩).2.1 [2, 3] ⟨by decide, by decide, by decide⟩
  obtain ⟨-, -, -, hlocate, -, -, hset, -⟩ := (array_addressing h).2.2 0 [2, 3] ha
  have hlast : Within [2, 1] [2, 3] := .cons (by decide) (.cons (by decide) .nil)
  have hfirst : Within [1, 3] [2, 3] := .cons (by decide) (.cons (by decide) .nil)
  obtain ⟨h', hstored, -, hread, hothers⟩ := hset [2, 1] (.bool true) hlast
  exact ⟨h, hdim, ha, h', hstored, hread, hothers [1, 3] hfirst (by decide),
    hlocate .reading _ hlast⟩

end LineBasic
