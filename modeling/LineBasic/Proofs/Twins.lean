import LineBasic.Proofs.Renumbering
import LineBasic.Proofs.Turns
import LineBasic.Proofs.Uniform

/-!
# Machines up to renaming

Two machines that differ only in where their containers stand, and perhaps in the numbers of their
blocks, do the same, step by step. The renaming between them is fixed from the start: it also pairs the
places that new containers will get, and counts for containers once they exist on the first machine.
Containers of the second machine that are paired with nothing keep what they held.
-/

namespace LineBasic

set_option autoImplicit false

namespace Renaming

/-- The part of a renaming that is about containers of a heap. -/
def below (ρ : Renaming) (h : Heap) : Renaming where
  rel k r s := ρ.rel k r s ∧ r < h.count k
  one_to_one hr hr' := ρ.one_to_one hr.1 hr'.1

end Renaming

namespace Heap

/-- No container is gone. -/
def Grows (h h' : Heap) : Prop :=
  ∀ k, h.count k ≤ h'.count k

theorem Grows.below {h h' : Heap} (hgrows : h.Grows h') (ρ : Renaming) :
    (ρ.below h).Le (ρ.below h') :=
  fun _ _ _ hr => ⟨hr.1, Nat.lt_of_lt_of_le hr.2 (hgrows _)⟩

theorem Grows.trans {h h' h'' : Heap} (hgrows : h.Grows h') (hgrows' : h'.Grows h'') :
    h.Grows h'' :=
  fun k => Nat.le_trans (hgrows k) (hgrows' k)

theorem Grows.refl (h : Heap) : h.Grows h :=
  fun _ => Nat.le_refl _

theorem count_write (h : Heap) (slot : Slot) (v : Value) (k : Kind) :
    (h.write slot v).count k = h.count k := by
  cases slot with
  | cell r offset =>
    cases k with
    | array => exact Array.size_modify
    | map => rfl
  | entry r key =>
    cases k with
    | array => rfl
    | map => exact Array.size_modify

theorem grows_write (h : Heap) (slot : Slot) (v : Value) : h.Grows (h.write slot v) :=
  fun k => Nat.le_of_eq (count_write h slot v k).symm

theorem below_write (h : Heap) (slot : Slot) (v : Value) (ρ : Renaming) :
    ρ.below (h.write slot v) = ρ.below h := by
  unfold Renaming.below
  simp only [count_write]

theorem getD_modify {α : Type} [Inhabited α] (xs : Array α) {i : Nat} (hi : i < xs.size) (f : α → α)
    (j : Nat) : (xs.modify i f).getD j default =
      if i = j then f (xs.getD i default) else xs.getD j default := by
  simp only [Array.getD_eq_getD_getElem?, Array.getElem?_modify]
  split
  · rename_i heq
    subst heq
    simp [hi]
  · rfl

theorem grid_write_cell (h : Heap) {r : Ref} (hr : r < h.grids.size) (offset : Nat) (v : Value)
    (r' : Ref) : (h.write (.cell r offset) v).grid r' =
      if r = r' then (h.grid r).set offset v else h.grid r' :=
  getD_modify h.grids hr (·.set offset v) r'

theorem dict_write_entry (h : Heap) {r : Ref} (hr : r < h.dicts.size) (key : String) (v : Value)
    (r' : Ref) : (h.write (.entry r key) v).dict r' =
      if r = r' then (h.dict r).set key v else h.dict r' :=
  getD_modify h.dicts hr (·.set key v) r'

theorem Rel.write {σ : Renaming} {h h' : Heap} (hrel : Rel σ h h') {slot slot' : Slot}
    (hslot : slot.Rel σ slot') {v w : Value} (hvw : Value.Rel σ v w) :
    Rel σ (h.write slot v) (h'.write slot' w) := by
  refine ⟨fun hr => ?_, fun {r₁ s₁} hr => ?_, fun {r₁ s₁} hr => ?_⟩
  · rw [count_write, count_write]
    exact hrel.live hr
  · cases hslot with
    | @cell r s hrs offset =>
      have hlive := hrel.live hrs
      rw [grid_write_cell h hlive.1, grid_write_cell h' hlive.2]
      by_cases heq : r = r₁
      · rw [if_pos heq, if_pos ((σ.one_to_one hrs hr).mp heq)]
        exact (hrel.grid hrs).set offset hvw
      · rw [if_neg heq, if_neg fun h => heq ((σ.one_to_one hrs hr).mpr h)]
        exact hrel.grid hr
    | entry => exact hrel.grid hr
  · cases hslot with
    | cell => exact hrel.dict hr
    | @entry r s hrs key =>
      have hlive := hrel.live hrs
      rw [dict_write_entry h hlive.1, dict_write_entry h' hlive.2]
      by_cases heq : r = r₁
      · rw [if_pos heq, if_pos ((σ.one_to_one hrs hr).mp heq)]
        exact (hrel.dict hrs).set key hvw
      · rw [if_neg heq, if_neg fun h => heq ((σ.one_to_one hrs hr).mpr h)]
        exact hrel.dict hr

/-- Nothing happened to containers that a renaming does not lead to. -/
structure Spares (ρ : Renaming) (base h : Heap) : Prop where
  grows : base.Grows h
  grid : ∀ s, (∀ r, ¬ρ.rel .array r s) → h.grid s = base.grid s
  dict : ∀ s, (∀ r, ¬ρ.rel .map r s) → h.dict s = base.dict s

/-- Heaps that are the same up to a renaming, now and for containers to come. -/
structure Twins (ρ : Renaming) (base h h' : Heap) : Prop where
  rel : Rel (ρ.below h) h h'
  fresh : ∀ k i, ρ.rel k (h.count k + i) (h'.count k + i)
  spares : Spares ρ base h'

/-- The same heap with so many more containers behind the others. -/
structure Extends (h : Heap) (added : Kind → Nat) (h' : Heap) : Prop where
  count : ∀ k, h'.count k = h.count k + added k
  grid : ∀ r < h.count .array, h'.grid r = h.grid r
  dict : ∀ r < h.count .map, h'.dict r = h.dict r

theorem Extends.grows {h h' : Heap} {added : Kind → Nat} (hext : h.Extends added h') :
    h.Grows h' := by
  intro k
  rw [hext.count k]
  exact Nat.le_add_right _ _

theorem getD_push {α : Type} [Inhabited α] (xs : Array α) (x : α) {i : Nat} (hi : i < xs.size) :
    (xs.push x).getD i default = xs.getD i default := by
  rw [Array.getD_eq_getD_getElem?, Array.getD_eq_getD_getElem?, Array.getElem?_push,
    if_neg (Nat.ne_of_lt hi)]

theorem getD_push_size {α : Type} [Inhabited α] (xs : Array α) (x : α) :
    (xs.push x).getD xs.size default = x := by
  simp [Array.getD_eq_getD_getElem?]

theorem newArray_extends (h : Heap) (g : Grid) : h.Extends
    (fun | .array => 1 | .map => 0) (h.newArray g).2 where
  count k := by
    cases k with
    | array => exact Array.size_push _
    | map => rfl
  grid r hr := getD_push h.grids g hr
  dict _ _ := rfl

theorem newMap_extends (h : Heap) : h.Extends (fun | .array => 0 | .map => 1) h.newMap.2 where
  count k := by
    cases k with
    | array => rfl
    | map => exact Array.size_push _
  grid _ _ := rfl
  dict r hr := getD_push h.dicts {} hr

namespace Twins

variable {ρ : Renaming} {base h h' : Heap} (htwins : Twins ρ base h h')
include htwins

theorem write {slot slot' : Slot} (hslot : slot.Rel (ρ.below h) slot') {v w : Value}
    (hvw : Value.Rel (ρ.below h) v w) : Twins ρ base (h.write slot v) (h'.write slot' w) := by
  refine ⟨?_, fun k i => ?_, fun k => ?_, fun s hs => ?_, fun s hs => ?_⟩
  · rw [below_write]
    exact htwins.rel.write hslot hvw
  · rw [count_write, count_write]
    exact htwins.fresh k i
  · rw [count_write]
    exact htwins.spares.grows k
  · rw [← htwins.spares.grid s hs]
    cases hslot with
    | cell hrs offset =>
      rw [grid_write_cell h' (htwins.rel.live hrs).2, if_neg]
      rintro rfl
      exact hs _ hrs.1
    | entry => rfl
  · rw [← htwins.spares.dict s hs]
    cases hslot with
    | cell => rfl
    | entry hrs key =>
      rw [dict_write_entry h' (htwins.rel.live hrs).2, if_neg]
      rintro rfl
      exact hs _ hrs.1

/-- Both heaps may get more containers, the same on both sides. -/
theorem extend {H H' : Heap} {added : Kind → Nat} (hext : h.Extends added H)
    (hext' : h'.Extends added H')
    (hgrid : ∀ i < added .array, Grid.Rel (ρ.below H) (H.grid (h.count .array + i))
      (H'.grid (h'.count .array + i)))
    (hdict : ∀ i < added .map, Dict.Rel (ρ.below H) (H.dict (h.count .map + i))
      (H'.dict (h'.count .map + i))) : Twins ρ base H H' := by
  have hle := hext.grows.below ρ
  have hold {k : Kind} {s : Ref} (hs : ∀ r, ¬ρ.rel k r s) : s < h'.count k := by
    refine Nat.lt_of_not_le fun hge => hs (h.count k + (s - h'.count k)) ?_
    have hfresh := htwins.fresh k (s - h'.count k)
    rwa [Nat.add_sub_of_le hge] at hfresh
  -- A pair that counts now is an old one, or its two sides are new in the same order.
  have hsplit {k : Kind} {r s : Ref} (hr : (ρ.below H).rel k r s) :
      (r < h.count k ∧ s < h'.count k) ∨
        ∃ i < added k, r = h.count k + i ∧ s = h'.count k + i := by
    by_cases hlt : r < h.count k
    · exact .inl ⟨hlt, (htwins.rel.live ⟨hr.1, hlt⟩).2⟩
    · have hge := Nat.le_of_not_lt hlt
      have hbound := hr.2
      rw [hext.count k] at hbound
      have hi : r = h.count k + (r - h.count k) := (Nat.add_sub_of_le hge).symm
      refine .inr ⟨r - h.count k, Nat.sub_lt_left_of_lt_add hge hbound, hi, ?_⟩
      exact (ρ.one_to_one hr.1 (htwins.fresh k _)).mp hi
  refine ⟨⟨fun {k r s} hr => ⟨hr.2, ?_⟩, fun hr => ?_, fun hr => ?_⟩, fun k i => ?_,
    htwins.spares.grows.trans hext'.grows, fun s hs => ?_, fun s hs => ?_⟩
  · rw [hext'.count k]
    rcases hsplit hr with ⟨-, hs⟩ | ⟨i, hi, -, rfl⟩
    · exact Nat.lt_of_lt_of_le hs (Nat.le_add_right _ _)
    · exact Nat.add_lt_add_left hi _
  · rcases hsplit hr with ⟨hlt, hs⟩ | ⟨i, hi, rfl, rfl⟩
    · rw [hext.grid _ hlt, hext'.grid _ hs]
      exact (htwins.rel.grid ⟨hr.1, hlt⟩).mono hle
    · exact hgrid i hi
  · rcases hsplit hr with ⟨hlt, hs⟩ | ⟨i, hi, rfl, rfl⟩
    · rw [hext.dict _ hlt, hext'.dict _ hs]
      exact (htwins.rel.dict ⟨hr.1, hlt⟩).mono hle
    · exact hdict i hi
  · rw [hext.count k, hext'.count k, Nat.add_assoc, Nat.add_assoc]
    exact htwins.fresh k _
  · rw [hext'.grid s (hold hs), htwins.spares.grid s hs]
  · rw [hext'.dict s (hold hs), htwins.spares.dict s hs]

theorem newArray {g g' : Grid} (hg : Grid.Rel (ρ.below h) g g') :
    Twins ρ base (h.newArray g).2 (h'.newArray g').2 ∧
      Value.Rel (ρ.below (h.newArray g).2) (h.newArray g).1 (h'.newArray g').1 := by
  have hext := h.newArray_extends g
  refine ⟨htwins.extend hext (h'.newArray_extends g') (fun i hi => ?_)
    (fun i hi => absurd hi (Nat.not_lt_zero i)), .array ⟨htwins.fresh .array 0, ?_⟩⟩
  · obtain rfl : i = 0 := Nat.lt_one_iff.mp hi
    change Grid.Rel _ ((h.grids.push g).getD h.grids.size default)
      ((h'.grids.push g').getD h'.grids.size default)
    rw [getD_push_size, getD_push_size]
    exact hg.mono (hext.grows.below ρ)
  · rw [hext.count]
    exact Nat.lt_succ_self _

theorem newMap : Twins ρ base h.newMap.2 h'.newMap.2 ∧
    Value.Rel (ρ.below h.newMap.2) h.newMap.1 h'.newMap.1 := by
  have hext := h.newMap_extends
  refine ⟨htwins.extend hext h'.newMap_extends (fun i hi => absurd hi (Nat.not_lt_zero i))
    (fun i hi => ?_), .map ⟨htwins.fresh .map 0, ?_⟩⟩
  · obtain rfl : i = 0 := Nat.lt_one_iff.mp hi
    change Dict.Rel _ ((h.dicts.push {}).getD h.dicts.size default)
      ((h'.dicts.push {}).getD h'.dicts.size default)
    rw [getD_push_size, getD_push_size]
    exact .empty
  · rw [hext.count]
    exact Nat.lt_succ_self _

theorem dim {sizes sizes' : List Value}
    (hsizes : List.Forall₂ (Value.Rel (ρ.below h)) sizes sizes') :
    Except.Related Eq (fun r r' => Twins ρ base r.2 r'.2 ∧ h.Grows r.2 ∧
      Value.Rel (ρ.below r.2) r.1 r'.1) (h.dim sizes) (h'.dim sizes') := by
  have hgrid := Grid.ofSizes_rel hsizes
  unfold Heap.dim
  revert hgrid
  generalize Grid.ofSizes sizes = x
  generalize Grid.ofSizes sizes' = y
  intro hgrid
  cases hgrid with
  | ok hg =>
    obtain ⟨htwins', hvalue⟩ := htwins.newArray hg
    exact .ok ⟨htwins', (h.newArray_extends _).grows, hvalue⟩
  | error hfault => exact .error (htwins.rel.sizeError_eq hfault)

end Twins

end Heap

/-! ### Machines -/

inductive HostRequest.Rel (σ : Renaming) : HostRequest → HostRequest → Prop where
  | print (text : String) : Rel σ (.print text) (.print text)
  | store (name : String) {v w : Value} (h : Value.Rel σ v w) : Rel σ (.store name v) (.store name w)

theorem HostRequest.Rel.mono {σ τ : Renaming} (hle : σ.Le τ) {r r' : HostRequest}
    (h : r.Rel σ r') : r.Rel τ r' := by
  cases h with
  | print text => exact .print text
  | store name h => exact .store name (h.mono hle)

/-- A command that treats containers alike wherever they stand, and unless it is `timely` does not
wait. -/
def CommandAction.Uniform (timely : Prop) : CommandAction → Prop
  | .builtin command => command = .sleep → timely
  | .host handler => ∀ {σ : Renaming} {h h' : Heap} {args args' : List Value}, Heap.Rel σ h h' →
    List.Forall₂ (Value.Rel σ) args args' →
    Except.Related Eq (List.Forall₂ (HostRequest.Rel σ)) (handler h args) (handler h' args')

theorem CommandAction.Uniform.mono {timely timely' : Prop} (hle : timely → timely')
    {c : CommandAction} (h : c.Uniform timely) : c.Uniform timely' := by
  cases c with
  | builtin command => exact fun hc => hle (h hc)
  | host handler => exact h

/-- How machines are compared: their blocks by a numbering and their containers by a renaming, with
what containers that are paired with nothing hold, and whether clocks and random sources are the
same. -/
structure Likeness where
  numbering : Numbering
  refs : Renaming
  base : Heap
  timely : Prop

namespace Likeness

/-- The pairs that count when the first machine has that heap. -/
abbrev below (L : Likeness) (h : Heap) : Renaming :=
  L.refs.below h

/-- The same place, in blocks that correspond. -/
abbrev Frames (L : Likeness) : Frame → Frame → Prop :=
  Frame.Rel L.numbering.block

end Likeness

/-- The part of a machine in which machines that are compared can differ. -/
structure Stock extends Links where
  scope : Scope
  data : DataQueue
  heap : Heap
  random : Random
  clock : Clock

structure Stock.Twins (L : Likeness) (p p' : Stock) : Prop
    extends p.toLinks.Rel L.numbering p'.toLinks where
  random : L.timely → p.random = p'.random
  clock : L.timely → p.clock = p'.clock
  scope : Scope.Rel (L.below p.heap) p.scope p'.scope
  data : DataQueue.Rel (L.below p.heap) p.data p'.data
  heap : Heap.Twins L.refs L.base p.heap p'.heap

namespace Machine

def stock (m : Machine) : Stock :=
  { m.toSnapshot with heap := m.heap, random := m.random, clock := m.clock }

def withStock (m : Machine) (p : Stock) : Machine :=
  { m with
    code := p.code, returns := p.returns, resume := p.resume, program := p.program
    scope := p.scope, data := p.data, heap := p.heap, random := p.random, clock := p.clock }

/-- Commands and functions that treat containers alike wherever they stand. -/
structure Uniform (m : Machine) : Prop where
  functions : ∀ (name : String) f, m.functions[name]? = some f → f.Uniform (name ∈ timedNames)
  commands : ∀ (name : String) c, m.commands[name]? = some c →
    c.action.Uniform (name ∈ timedNames)

theorem Uniform.of_fixtures {m m' : Machine} (h : m.Uniform) (hm : m'.fixtures = m.fixtures) :
    m'.Uniform where
  functions name f hf := h.functions name f (congrArg (·.2.2[name]?) hm ▸ hf)
  commands name c hc := h.commands name c (congrArg (·.2.1[name]?) hm ▸ hc)

/-- Machines that are the same up to the places of their containers, up to what their blocks are
compared by, and if it is not `timely` up to their clocks and random sources. -/
structure Twins (L : Likeness) (m m' : Machine) : Prop where
  rest : m' = m.withStock m'.stock
  stock : m.stock.Twins L m'.stock
  uniform : m.Uniform

namespace Twins

variable {L : Likeness} {m m' : Machine} (h : Twins L m m')
include h

theorem code : Option.Rel L.numbering.block m.code m'.code :=
  h.stock.code

theorem returns : m.returns.Rel L.Frames m'.returns :=
  h.stock.returns

theorem resume : Option.Rel (fun p p' => L.Frames p.1 p'.1 ∧ p.2 = p'.2) m.resume m'.resume :=
  h.stock.resume

theorem program : L.numbering.program m.program m'.program :=
  h.stock.program

theorem random : L.timely → m.random = m'.random :=
  h.stock.random

theorem clock : L.timely → m.clock = m'.clock :=
  h.stock.clock

theorem scope : Scope.Rel (L.below m.heap) m.scope m'.scope :=
  h.stock.scope

theorem data : DataQueue.Rel (L.below m.heap) m.data m'.data :=
  h.stock.data

theorem heap : Heap.Twins L.refs L.base m.heap m'.heap :=
  h.stock.heap

theorem pc_eq : m'.pc = m.pc :=
  congrArg (·.pc) h.rest

theorem status_eq : m'.status = m.status :=
  congrArg (·.status) h.rest

theorem pending_eq : m'.pending = m.pending :=
  congrArg (·.pending) h.rest

theorem listing_eq : m'.listing = m.listing :=
  congrArg (·.listing) h.rest

theorem config_eq : m'.config = m.config :=
  congrArg (·.config) h.rest

theorem update {f : Machine → Machine} (hf : ∀ m p, f (m.withStock p) = (f m).withStock p)
    (hfixtures : (f m).fixtures = m.fixtures) : Twins L (f m) (f m') := by
  have hself : f m = (f m).withStock m.stock := hf m m.stock
  have hrest := (congrArg f h.rest).trans (hf m m'.stock)
  have hstock : (f m).stock = m.stock := congrArg (·.stock) hself
  have hstock' : (f m').stock = m'.stock := congrArg (·.stock) hrest
  refine ⟨?_, ?_, h.uniform.of_fixtures hfixtures⟩
  · rw [hstock']
    exact hrest
  · rw [hstock, hstock']
    exact h.stock

theorem withStock (p p' : Stock) (hp : p.Twins L p') :
    Twins L (m.withStock p) (m'.withStock p') :=
  ⟨congrArg (·.withStock p') h.rest, hp, h.uniform.functions, h.uniform.commands⟩

theorem withCode {code code' : Option Block} (hcode : Option.Rel L.numbering.block code code') :
    Twins L { m with code := code } { m' with code := code' } :=
  h.withStock { m.stock with code := code } { m'.stock with code := code' }
    { h.stock with code := hcode }

theorem withReturns {returns returns' : BoundedStack Frame}
    (hreturns : returns.Rel L.Frames returns') :
    Twins L { m with returns := returns } { m' with returns := returns' } :=
  h.withStock { m.stock with returns := returns } { m'.stock with returns := returns' }
    { h.stock with returns := hreturns }

theorem withResume {resume resume' : Option (Frame × Status)}
    (hresume : Option.Rel (fun p p' => L.Frames p.1 p'.1 ∧ p.2 = p'.2) resume resume') :
    Twins L { m with resume := resume } { m' with resume := resume' } :=
  h.withStock { m.stock with resume := resume } { m'.stock with resume := resume' }
    { h.stock with resume := hresume }

theorem withProgram {program program' : Program}
    (hprogram : L.numbering.program program program') :
    Twins L { m with program := program } { m' with program := program' } :=
  h.withStock { m.stock with program := program } { m'.stock with program := program' }
    { h.stock with program := hprogram }

theorem withScope {s s' : Scope} (hs : Scope.Rel (L.below m.heap) s s') :
    Twins L { m with scope := s } { m' with scope := s' } :=
  h.withStock { m.stock with scope := s } { m'.stock with scope := s' } { h.stock with scope := hs }

theorem withData {d d' : DataQueue} (hd : DataQueue.Rel (L.below m.heap) d d') :
    Twins L { m with data := d } { m' with data := d' } :=
  h.withStock { m.stock with data := d } { m'.stock with data := d' } { h.stock with data := hd }

theorem withHeap {H H' : Heap} (hH : Heap.Twins L.refs L.base H H') (hgrows : m.heap.Grows H) :
    Twins L { m with heap := H } { m' with heap := H' } :=
  h.withStock { m.stock with heap := H } { m'.stock with heap := H' } { h.stock with
    heap := hH, scope := h.scope.mono (hgrows.below _), data := h.data.mono (hgrows.below _) }

theorem withRandom {random random' : Random} (hrandom : L.timely → random = random') :
    Twins L { m with random := random } { m' with random := random' } :=
  h.withStock { m.stock with random := random } { m'.stock with random := random' }
    { h.stock with random := hrandom }

theorem withClock {clock clock' : Clock} (hclock : L.timely → clock = clock') :
    Twins L { m with clock := clock } { m' with clock := clock' } :=
  h.withStock { m.stock with clock := clock } { m'.stock with clock := clock' }
    { h.stock with clock := hclock }

theorem withStatus (status : Status) :
    Twins L { m with status := status } { m' with status := status } :=
  h.update (f := fun x => { x with status := status }) (fun _ _ => rfl) rfl

theorem print (s : String) : Twins L (m.print s) (m'.print s) :=
  h.update (f := fun m => m.print s) (fun _ _ => rfl) rfl

theorem pushEvent (e : Event) : Twins L (m.pushEvent e) (m'.pushEvent e) :=
  h.update (f := fun m => m.pushEvent e) (fun _ _ => rfl) rfl

theorem env : Env.Rel L.timely (L.below m.heap) m.env m'.env := by
  have hmemory : m'.memory = m.memory := congrArg (·.memory) h.rest
  have hfunctions : m'.functions = m.functions := congrArg (·.functions) h.rest
  have hnames : m'.literalNames = m.literalNames := congrArg (·.literalNames) h.rest
  exact ⟨⟨h.heap.rel, hmemory.symm, h.clock⟩, h.scope, hfunctions.symm, h.uniform.functions,
    hnames.symm⟩

end Twins

end Machine

end LineBasic
