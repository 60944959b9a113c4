import LineBasic.Proofs.Addressing
import LineBasic.Proofs.Footprints
import LineBasic.Proofs.Isolation
import LineBasic.Proofs.KeptSnapshots

/-!
# Reading and writing the same element

A selector is followed by two walks, one that reads its element and one that finds the element to
be written. In a machine in the course of a session both come to the same element or both fail, the
element is there, and a write changes nothing else. Main statement: what is written through a
selector is read through it afterwards, unless the walk itself reads the written element.
-/

namespace LineBasic

set_option autoImplicit false

/-! ### Elements that are found are there -/

namespace Heap

variable {h : Heap} {container : Value} {keys : List Value} {access : Access} {slot : Slot}

theorem writable_of_locate (hs : h.Shaped) (hc : h.Live container)
    (hslot : h.locate access container keys = .ok slot) : h.Writable slot := by
  cases container with
  | array r =>
    have ha := hs r (hc .array r rfl)
    obtain ⟨t, -, ht, rfl⟩ := ha.locate_eq_ok_iff.mp hslot
    exact ha.writable ht
  | map r =>
    obtain ⟨v, key, -, -, rfl⟩ := locate_map_eq_ok_iff.mp hslot
    exact hc .map r rfl
  | _ => cases hslot

theorem Closed.live_read (hclosed : h.Closed) (hc : h.Live container)
    (hslot : h.locate access container keys = .ok slot) : h.Live (h.read slot) := by
  rw [read_eq]
  cases hv : h.element? slot with
  | none =>
    intro k r hr
    cases slot <;> cases hr
  | some v =>
    have hmem := mem_contents hv
    rw [holder_of_locate hslot] at hmem
    cases container with
    | array r => exact hclosed .array r (hc .array r rfl) v hmem
    | map r => exact hclosed .map r (hc .map r rfl) v hmem
    | _ => cases hslot

theorem Changes.shaped {h' : Heap} {slots : List Slot} (hc : h.Changes slots h') (hs : h.Shaped) :
    h'.Shaped := by
  induction hc with
  | refl h => exact hs
  | write h slot v => exact hs.write slot v
  | dim hdim => exact hs.dim hdim
  | newMap h => exact hs.newMap
  | trans _ _ ih₁ ih₂ => exact ih₂ (ih₁ hs)

end Heap

theorem Env.writable_slotFrom {env : Env} (hs : env.heap.Shaped) (hclosed : env.heap.Closed)
    {name : String} {container : Value} {level : List Expr} {more : List (List Expr)} {slot : Slot}
    {random after : Random} (hc : env.heap.Live container)
    (h : (env.slotFrom name container level more).run random = (.ok slot, after)) :
    env.heap.Writable slot := by
  induction more generalizing container level random with
  | nil =>
    obtain ⟨keys, between, -, hfound⟩ := Eval.run_bind_eq_ok h
    exact Heap.writable_of_locate hs hc (Prod.mk.inj hfound).1
  | cons following more ih =>
    obtain ⟨keys, between, -, hrest⟩ := Eval.run_bind_eq_ok h
    obtain ⟨v, between', hv, hrest⟩ := Eval.run_bind_eq_ok hrest
    obtain ⟨earlier, hearlier, rfl⟩ := Heap.getElement_eq_ok_iff.mp (Prod.mk.inj hv).1
    split at hrest
    · obtain ⟨_, _, hthrown, -⟩ := Eval.run_bind_eq_ok hrest
      cases hthrown
    · exact ih (hclosed.live_read hc hearlier) hrest

/-! ### Machines in the course of a session -/

/-- No reference leads nowhere, functions treat containers alike wherever they stand, and arrays
have the cells for their sizes. -/
structure Machine.InOrder (m : Machine) : Prop where
  twins : m.Twins ⟨.exact, .identity, {}, True⟩ m
  shaped : m.heap.Shaped

namespace Machine.InOrder

variable {m : Machine} (hm : m.InOrder)
include hm

theorem turn : m.turn.InOrder :=
  ⟨(hm.twins.turn fun _ _ _ => trivial).1, m.changes_turn.shaped hm.shaped⟩

theorem turns (k : Nat) : (Machine.turn^[k] m).InOrder := by
  induction k generalizing m with
  | zero => exact hm
  | succ k ih =>
    rw [Function.iterate_succ_apply]
    exact ih hm.turn

theorem beginning (s : Stmt Address) : (m.beginning s).InOrder := by
  have hnext := hm.twins.update (f := fun x => { x with pc := x.pc + 1 })
    (fun _ _ => rfl) rfl
  exact ⟨hnext.trace s.pos, by rw [m.heap_beginning s]; exact hm.shaped⟩

theorem drawn (random : Random) : ({ m with random := random } : Machine).InOrder :=
  ⟨hm.twins.withRandom fun _ => rfl, hm.shaped⟩

theorem taken {v : Value} {data : DataQueue} (hread : m.data.read = .ok (v, data)) :
    ({ m with data := data } : Machine).InOrder := by
  have hdata := hm.twins.data.read
  rw [hread] at hdata
  cases hdata with
  | ok hr => exact ⟨hm.twins.withData hr.2, hm.shaped⟩

theorem readOne (target : Target) : ((Action.readOne target).run m).2.InOrder := by
  have hall : ((Action.readAll [target]).run m).2 = ((Action.readOne target).run m).2 := by
    rw [Action.readAll_cons, Action.run_bind]
    rcases (Action.readOne target).run m with ⟨r, n⟩
    cases r with
    | ok _ => rfl
    | error e => rfl
  have htracks : Action.Tracks ⟨.exact, .identity, {}, True⟩
      (Renaming.identity.below m.heap) (fun _ => Eq)
      (Action.readAll [target]) (Action.readAll [target]) :=
    Action.tracks_readAll [target] fun _ => trivial
  obtain ⟨-, htwins, -⟩ := htracks m m hm.twins fun _ _ _ h => h
  rw [hall] at htwins
  exact ⟨htwins, (Action.changes_readOne target m).shaped hm.shaped⟩

end Machine.InOrder

namespace Session

/-- A machine in the course of a session: between two statements, or in the middle of one that has
begun, has drawn random numbers, or has read data into some of its targets. -/
inductive Passes (ext : Extensions) : Machine → Prop where
  | occurs {m : Machine} (h : Occurs ext m) : Passes ext m
  | begins {m : Machine} {s : Stmt Address} (h : Passes ext m) (hs : m.upcoming? = some s) :
      Passes ext (m.beginning s)
  | draws {m : Machine} (h : Passes ext m) (random : Random) :
      Passes ext { m with random := random }
  | takes {m : Machine} {v : Value} {data : DataQueue} (h : Passes ext m)
      (hread : m.data.read = .ok (v, data)) : Passes ext { m with data := data }
  | reads {m : Machine} (h : Passes ext m) (target : Target) :
      Passes ext ((Action.readOne target).run m).2

theorem Reachable.shaped {s : Session} {kept : List Snapshot} (h : Reachable .uniform s kept) :
    s.machine.heap.Shaped := by
  induction h with
  | new config random =>
    have hheap : (Machine.new config random).heap = {} := rfl
    intro r hr
    rw [hheap] at hr
    exact absurd hr (Nat.not_lt_zero r)
  | serve _ clock op ih => exact (changes_serve _ clock op).shaped ih
  | print _ text ih => exact ih
  | defineConstant _ name hv ih => exact (changes_supply hv).shaped ih
  | defineFunction _ hf ih => exact ih
  | defineCommand _ hc ih => exact ih
  | @snapshot s kept h ih =>
    have hsound := h.sound.1
    rw [Machine.snapshot_eq]
    refine Heap.Shaped.addCopies ih fun i r hr => ?_
    have hplace := (s.machine.heap.indexed_reachable s.machine.roots .array r i).mpr hr
    exact hsound.closed.live_reachable hsound.live_roots (Option.isSome_iff_exists.mpr ⟨i, hplace⟩)
  | restore _ hsnap ih => exact ih

theorem Occurs.inOrder {m : Machine} (h : Occurs .uniform m) : m.InOrder := by
  obtain ⟨s, kept, clock, k, hs, rfl⟩ := h
  apply Machine.InOrder.turns
  refine ⟨?_, ?_⟩
  · have hclock : ({ s.machine with clock := clock } : Machine).idle.Twins
        ⟨.exact, .identity, {}, True⟩ ({ s.machine with clock := clock } : Machine).idle :=
      hs.sound.1.machine.withClock fun _ => rfl
    have hwake := hclock.wake fun _ => trivial
    rw [Machine.wake_idle] at hwake
    exact hwake
  · change ({ s.machine with clock := clock } : Machine).wake.heap.Shaped
    rw [Machine.heap_wake]
    exact hs.shaped

theorem Passes.inOrder {m : Machine} (h : Passes .uniform m) : m.InOrder := by
  induction h with
  | occurs h => exact h.inOrder
  | begins _ hs ih => exact ih.beginning _
  | draws _ random ih => exact ih.drawn random
  | takes _ hread ih => exact ih.taken hread
  | reads _ target ih => exact ih.readOne target

end Session

namespace Machine.InOrder

variable {m : Machine} (hm : m.InOrder)
include hm

theorem live_fetch {name : String} {v : Value} (hname : m.scope.fetch name = some v) :
    m.heap.Live v := by
  have hfetch := hm.twins.scope.fetch name
  rw [hname] at hfetch
  cases hfetch with
  | some hv => exact hv.live

/-- A selector without a call of a timed function leads to the same place whatever the random
source. -/
theorem slot_steady {name : String} {selector : Selector} (huntimed : selector.timed = false)
    {slot : Slot} {random after : Random}
    (h : (m.env.slot name selector).run random = (.ok slot, after)) (random' : Random) :
    ∃ after', (m.env.slot name selector).run random' = (.ok slot, after') := by
  have htwins : m.Twins ⟨.exact, .identity, {}, False⟩ m :=
    ⟨hm.twins.rest, ⟨hm.twins.stock.toRel, nofun, nofun, hm.twins.scope, hm.twins.data,
      hm.twins.heap⟩, hm.twins.uniform⟩
  have hslot := htwins.env.slot name selector fun ht => by rw [huntimed] at ht; cases ht
  obtain ⟨hresult, -⟩ := hslot random random' nofun
  rw [h] at hresult
  rcases hrun : (m.env.slot name selector).run random' with ⟨r, after'⟩
  rw [hrun] at hresult
  cases hresult with
  | ok hrel =>
    cases hrel with
    | @cell r s hr =>
      obtain rfl : r = s := hr.1
      exact ⟨after', rfl⟩
    | @entry r s hr =>
      obtain rfl : r = s := hr.1
      exact ⟨after', rfl⟩

section

variable {name : String} {container : Value} (hname : m.scope.fetch name = some container)
  (hcontainer : container.isContainer = true) {first : List Expr} {more : List (List Expr)}
  {slot : Slot} {random : Random}
include hname hcontainer

theorem writable_slot
    (hslot : (m.env.slot name ⟨first :: more⟩).run m.random = (.ok slot, random)) :
    m.heap.Writable slot := by
  have hfetch : m.env.scope.fetch name = some container := hname
  have hshaped : m.env.heap.Shaped := hm.shaped
  rw [Env.slot_eq_slotFrom hfetch hcontainer] at hslot
  exact Env.writable_slotFrom hshaped hm.twins.heap.closed (hm.live_fetch hname) hslot

theorem fetched_after (huntimed : (⟨first :: more⟩ : Selector).timed = false)
    (hslot : (m.env.slot name ⟨first :: more⟩).run m.random = (.ok slot, random)) (pos : Pos)
    (v : Value) (hway : ¬m.env.ReadsOnWay slot container first more) :
    ∃ after, (Action.eval (.select pos name first more)).run
      { m with random := random, heap := m.heap.write slot v } =
        (.ok v, { m with random := after, heap := m.heap.write slot v }) := by
  have hw := hm.writable_slot hname hcontainer hslot
  have hfetch : m.env.scope.fetch name = some container := hname
  obtain ⟨after, hagain⟩ := hm.slot_steady huntimed hslot random
  rw [Env.slot_eq_slotFrom hfetch hcontainer] at hagain
  have hkeeps := Env.keeps_slotFrom hw v name
    (Env.keeps_levels hw v (first :: more)) hway
  -- writing leaves the variables alone, so the walk starts from the same container
  let n : Machine := { m with random := random, heap := m.heap.write slot v }
  have hname' : n.scope.fetch name = some container := hname
  have hfetch' : n.env.scope.fetch name = some container := hname
  have hfound : (n.env.slot name ⟨first :: more⟩).run random = (.ok slot, after) := by
    rw [Env.slot_eq_slotFrom hfetch' hcontainer]
    exact hkeeps random slot after hagain
  have hread : n.heap.read slot = v := (Heap.read_write hw v slot).trans (if_pos rfl)
  exact ⟨after, (Action.fetch_eq_ok_iff hname' hcontainer).mpr ⟨slot, after, hfound, hread, rfl⟩⟩

end

end Machine.InOrder

/-- In a machine in the course of a session, an element of the array or map that a name holds can be
written through a selector exactly if it can be read. A write changes that one element, the one that
is read, and no other, nor the sizes of arrays; one that fails changes no container. If the walk to
the element does not read it, what was written is read afterwards. -/
theorem stored_element_fetched {m : Machine} (hm : Session.Passes .uniform m) {name : String}
    {container : Value} (hname : m.scope.fetch name = some container)
    (hcontainer : container.isContainer = true) {first : List Expr} {more : List (List Expr)}
    (huntimed : (⟨first :: more⟩ : Selector).timed = false) (pos : Pos) (v : Value) :
    let store := Action.storeElement name ⟨first :: more⟩ v
    let fetch := Action.eval (.select pos name first more)
    ((∃ n, store.run m = (.ok (), n)) ↔ ∃ w n, fetch.run m = (.ok w, n)) ∧
    (∀ n, store.run m = (.ok (), n) → ∃ slot random,
      fetch.run m = (.ok (m.heap.read slot), { m with random := random }) ∧
      n = { m with random := random, heap := m.heap.write slot v } ∧
      n.heap.element? slot = some v ∧
      (∀ other, other ≠ slot → n.heap.element? other = m.heap.element? other) ∧
      (∀ k, n.heap.count k = m.heap.count k) ∧
      (∀ r, (n.heap.grid r).sizes = (m.heap.grid r).sizes) ∧
      (¬m.env.ReadsOnWay slot container first more →
        ∃ after, fetch.run n = (.ok v, { n with random := after }))) ∧
    ∀ e n, store.run m = (.error e, n) → ∃ random, n = { m with random := random } := by
  have horder := hm.inOrder
  intro store fetch
  refine ⟨?_, fun n hn => ?_, fun e n hn => ?_⟩
  · constructor
    · rintro ⟨n, hn⟩
      obtain ⟨slot, random, hslot, -⟩ := Action.storeElement_eq_ok_iff.mp hn
      exact ⟨_, _, (Action.fetch_eq_ok_iff hname hcontainer).mpr ⟨slot, random, hslot, rfl, rfl⟩⟩
    · rintro ⟨w, n, hn⟩
      obtain ⟨slot, random, hslot, -⟩ := (Action.fetch_eq_ok_iff hname hcontainer).mp hn
      exact ⟨_, Action.storeElement_eq_ok_iff.mpr ⟨slot, random, hslot, rfl⟩⟩
  · obtain ⟨slot, random, hslot, rfl⟩ := Action.storeElement_eq_ok_iff.mp hn
    have hw := horder.writable_slot hname hcontainer hslot
    refine ⟨slot, random, (Action.fetch_eq_ok_iff hname hcontainer).mpr
        ⟨slot, random, hslot, rfl, rfl⟩, rfl, ?_, fun other hne => ?_,
      fun k => m.heap.count_write slot v k, fun r => (m.heap.shape_write slot v r).1,
      horder.fetched_after hname hcontainer huntimed hslot pos v⟩
    · exact (Heap.element?_write hw v slot).trans (if_pos rfl)
    · exact (Heap.element?_write hw v other).trans (if_neg hne.symm)
  · rw [Action.run_storeElement] at hn
    split at hn
    · cases hn
    · exact ⟨_, (Prod.mk.inj hn).2.symm⟩

/-- An array in a map: its second element, named through the map, is written and read back. -/
theorem stored_element_fetched_nested :
    let m := Session.runningLine "0" "map m : dim a(2) : m(1) = a" 3
    let first : List Expr := [.number ⟨1, 3⟩ 1]
    let more : List (List Expr) := [[.number ⟨1, 6⟩ 2]]
    m.scope.fetch "m" = some (.map 0) ∧
    ∃ n after, (Action.storeElement "m" ⟨first :: more⟩ (.text "new")).run m = (.ok (), n) ∧
      n.heap.element? (.cell 0 1) = some (.text "new") ∧
      (Action.eval (.select ⟨1, 1⟩ "m" first more)).run n =
        (.ok (.text "new"), { n with random := after }) := by
  intro m first more
  have hm : Session.Passes .uniform m := .occurs (Session.occurs_runningLine _ _ _)
  have hfacts : m.scope.fetch "m" = some (.map 0) ∧
      (⟨first :: more⟩ : Selector).timed = false ∧
      ((m.env.slot "m" ⟨first :: more⟩).run m.random).1 = .ok (.cell 0 1) ∧
      m.heap.element? (.cell 0 1) = some (.number 0) := by
    decide +kernel
  generalize m = m at *
  obtain ⟨hname, huntimed, hfound, hold⟩ := hfacts
  rcases hslot : (m.env.slot "m" ⟨first :: more⟩).run m.random with ⟨r, random⟩
  obtain rfl : r = .ok (.cell 0 1) := by rw [hslot] at hfound; exact hfound
  have hw := hm.inOrder.writable_slot hname rfl hslot
  have hwritten := (Heap.element?_write hw (.text "new") (.cell 0 1)).trans (if_pos rfl)
  obtain ⟨-, hstored, -⟩ := stored_element_fetched hm hname rfl huntimed ⟨1, 1⟩ (.text "new")
  let n : Machine := { m with random := random, heap := m.heap.write (.cell 0 1) (.text "new") }
  have hstore : (Action.storeElement "m" ⟨first :: more⟩ (.text "new")).run m = (.ok (), n) :=
    Action.storeElement_eq_ok_iff.mpr ⟨_, _, hslot, rfl⟩
  obtain ⟨slot, _, -, -, hnew, hothers, -, -, hfetch⟩ := hstored n hstore
  -- the element that was written is the one that changed
  obtain rfl : .cell 0 1 = slot := by
    by_contra hne
    exact absurd (hwritten.symm.trans ((hothers _ hne).trans hold)) (by decide)
  obtain ⟨after, hafter⟩ := hfetch fun hway => by
    change m.env.ReadsOnWay _ _ [.number ⟨1, 3⟩ 1] [[.number ⟨1, 6⟩ 2]] at hway
    cases hway with
    | keys h =>
      cases h with
      | head h => cases h
      | tail h => cases h
    | passed hkeys h =>
      obtain ⟨_, _, -, -, hentry⟩ := Heap.locate_map_eq_ok_iff.mp h
      cases hentry
    | later hkeys hearlier h =>
      cases h with
      | keys h =>
        cases h with
        | head h => cases h
        | tail h => cases h
  exact ⟨hname, n, after, hstore, hnew, hafter⟩

end LineBasic
