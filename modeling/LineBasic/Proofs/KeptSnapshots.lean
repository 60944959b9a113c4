import LineBasic.Proofs.LeftCalls

/-!
# Snapshots that are kept

A snapshot has copies of the containers that variables and data lead to. A machine that is put back
works with these copies and not with copies of them, so what it writes there is still there when the
same snapshot is put back once more. Nothing but a written element can make such a difference: up to
the places of containers, the variables and the data come back as they were, and so does every
container of which no element was written in the meantime.
-/

namespace LineBasic

set_option autoImplicit false

/-- The container that an element belongs to. -/
def Slot.container : Slot → Kind × Ref
  | .cell r _ => (.array, r)
  | .entry r _ => (.map, r)

/-! ### Heaps after some elements were written -/

namespace Heap

theorem getD_modify_of_ne {α : Type} [Inhabited α] (xs : Array α) (f : α → α) {i j : Nat}
    (hne : i ≠ j) : (xs.modify i f).getD j default = xs.getD j default := by
  simp only [Array.getD_eq_getD_getElem?, Array.getElem?_modify, if_neg hne]

/-- A later heap in which containers hold what they held unless one of their elements is among those
that were written. -/
structure Wrote (h : Heap) (slots : List Slot) (h' : Heap) : Prop where
  grows : h.Grows h'
  grid : ∀ r < h.count .array, (∀ slot ∈ slots, slot.container ≠ (.array, r)) → h'.grid r = h.grid r
  dict : ∀ r < h.count .map, (∀ slot ∈ slots, slot.container ≠ (.map, r)) → h'.dict r = h.dict r

namespace Wrote

variable {h h' h'' : Heap} {slots slots' : List Slot}

theorem refl (h : Heap) : h.Wrote [] h :=
  ⟨.refl h, fun _ _ _ => rfl, fun _ _ _ => rfl⟩

theorem of_extends {added : Kind → Nat} (hext : h.Extends added h') : h.Wrote [] h' :=
  ⟨hext.grows, fun r hr _ => hext.grid r hr, fun r hr _ => hext.dict r hr⟩

theorem trans (hfirst : h.Wrote slots h') (hlater : h'.Wrote slots' h'') :
    h.Wrote (slots ++ slots') h'' := by
  refine ⟨hfirst.grows.trans hlater.grows, fun r hr hslots => ?_, fun r hr hslots => ?_⟩
  · rw [List.forall_mem_append] at hslots
    rw [hlater.grid r (Nat.lt_of_lt_of_le hr (hfirst.grows .array)) hslots.2,
      hfirst.grid r hr hslots.1]
  · rw [List.forall_mem_append] at hslots
    rw [hlater.dict r (Nat.lt_of_lt_of_le hr (hfirst.grows .map)) hslots.2,
      hfirst.dict r hr hslots.1]

theorem of_write (h : Heap) (slot : Slot) (v : Value) : h.Wrote [slot] (h.write slot v) := by
  refine ⟨h.grows_write slot v, fun r _ hslots => ?_, fun r _ hslots => ?_⟩
  · have hne := List.forall_mem_singleton.mp hslots
    cases slot with
    | cell r' offset => exact getD_modify_of_ne _ _ fun heq => hne (by rw [Slot.container, heq])
    | entry r' key => rfl
  · have hne := List.forall_mem_singleton.mp hslots
    cases slot with
    | cell r' offset => rfl
    | entry r' key => exact getD_modify_of_ne _ _ fun heq => hne (by rw [Slot.container, heq])

theorem of_dim {sizes : List Value} {r : Value × Heap} (hdim : h.dim sizes = .ok r) :
    h.Wrote [] r.2 := by
  unfold dim at hdim
  split at hdim
  · cases hdim
    exact .of_extends (h.newArray_extends _)
  · cases hdim

end Wrote

/-- What programs do to a heap: they write elements and make new containers. -/
inductive Changes : Heap → List Slot → Heap → Prop where
  | refl (h : Heap) : Changes h [] h
  | write (h : Heap) (slot : Slot) (v : Value) : Changes h [slot] (h.write slot v)
  | dim {h : Heap} {sizes : List Value} {r : Value × Heap} (hdim : h.dim sizes = .ok r) :
      Changes h [] r.2
  | newMap (h : Heap) : Changes h [] h.newMap.2
  | trans {h h' h'' : Heap} {slots slots' : List Slot} (hfirst : Changes h slots h')
      (hlater : Changes h' slots' h'') : Changes h (slots ++ slots') h''

namespace Changes

variable {h h' : Heap} {slots : List Slot}

theorem of_eq (heq : h' = h) : h.Changes [] h' :=
  heq ▸ refl h

theorem wrote (hc : h.Changes slots h') : h.Wrote slots h' := by
  induction hc with
  | refl h => exact .refl h
  | write h slot v => exact .of_write h slot v
  | dim hdim => exact .of_dim hdim
  | newMap h => exact .of_extends h.newMap_extends
  | trans _ _ ih₁ ih₂ => exact ih₁.trans ih₂

end Changes

end Heap

/-! ### Elements that statements write -/

theorem Machine.heap_compile (m : Machine) (source : String) (parent : Option Frame) :
    (m.compile source parent).2.heap = m.heap := by
  unfold compile
  split <;> rfl

theorem Machine.heap_compileListing (m : Machine) : m.compileListing.2.heap = m.heap := by
  unfold compileListing
  rw [heap_compile]

namespace Action

/-- The element that an action finds, unless it fails. -/
def found (x : Action Slot) (m : Machine) : List Slot :=
  match (x.run m).1 with
  | .ok slot => [slot]
  | .error _ => []

/-- Reads the next data value into a target. -/
def readOne (target : Target) : Action Unit := do
  let (v, data) ← ofExcept (← get).data.read
  modify fun m => { m with data := data }
  match target with
  | .var _ name => store name v
  | .element pos name selector => located pos (storeElement name selector v)

theorem readAll_cons (target : Target) (targets : List Target) :
    readAll (target :: targets) = readOne target >>= fun _ => readAll targets := by
  simp only [readAll, readOne, bind_assoc]
  cases target <;> rfl

end Action

/-- The element that the next data value is read into. -/
def Target.written : Target → Machine → List Slot
  | .var .., _ => []
  | .element _ name selector, m =>
    match m.data.read with
    | .ok (_, data) =>
      Action.found (Action.slot name selector) { m with data := data }
    | .error _ => []

/-- The elements that data values are read into, up to the first failure. -/
def Target.writtenAll : List Target → Machine → List Slot
  | [], _ => []
  | target :: targets, m =>
    match (Action.readOne target).run m with
    | (.ok _, n) => target.written m ++ writtenAll targets n
    | (.error _, _) => target.written m

/-- The elements that a statement writes. -/
def Stmt.written : Stmt Address → Machine → List Slot
  | .assignElement _ name selector e, m =>
    Action.found (do let _ ← Action.eval e; Action.slot name selector) m
  | .read _ targets, m => Target.writtenAll targets m
  | .when _ condition taken, m =>
    match (Action.eval condition).run m with
    | (.ok v, n) => if v.isTruthy then taken.written n else []
    | (.error _, _) => []
  | .choose _ condition taken otherwise, m =>
    match (Action.eval condition).run m with
    | (.ok v, n) => if v.isTruthy then taken.written n else otherwise.written n
    | (.error _, _) => []
  | _, _ => []

namespace Action

theorem changes_storeElement (name : String) (selector : Selector) (v : Value) (m : Machine) :
    m.heap.Changes (found (slot name selector) m)
      ((storeElement name selector v).run m).2.heap := by
  have hheap := (within_slot name selector).roams.heap_eq m
  rw [storeElement, run_bind, found]
  revert hheap
  rcases (slot name selector).run m with ⟨r, n⟩
  intro hheap
  cases r with
  | ok slot => exact hheap ▸ .write n.heap slot v
  | error e => exact .of_eq hheap

theorem changes_readOne (target : Target) (m : Machine) :
    m.heap.Changes (target.written m) ((readOne target).run m).2.heap := by
  rw [readOne, run_bind, run_get]
  dsimp only
  rw [run_bind]
  cases target with
  | var pos name =>
    cases hread : m.data.read with
    | ok r => exact .refl _
    | error e => exact .refl _
  | element pos name selector =>
    rw [Target.written]
    cases hread : m.data.read with
    | ok r => exact changes_storeElement name selector r.1 { m with data := r.2 }
    | error e => exact .refl _

theorem changes_readAll (targets : List Target) (m : Machine) :
    m.heap.Changes (Target.writtenAll targets m) ((readAll targets).run m).2.heap := by
  induction targets generalizing m with
  | nil => exact .refl _
  | cons target targets ih =>
    have hone := changes_readOne target m
    rw [readAll_cons, run_bind, Target.writtenAll]
    revert hone
    rcases (readOne target).run m with ⟨r, n⟩
    intro hone
    cases r with
    | ok _ => exact hone.trans (ih n)
    | error e => exact hone

/-- What a condition decides about is written after it was evaluated, which writes nothing. -/
theorem changes_of_condition (condition : Expr) (m : Machine) {k : Value → Action Unit}
    {slots : Value → Machine → List Slot}
    (h : ∀ (v : Value) (n : Machine), n.heap.Changes (slots v n) ((k v).run n).2.heap) :
    m.heap.Changes
      (match (eval condition).run m with
        | (.ok v, n) => slots v n
        | (.error _, _) => [])
      ((eval condition >>= k).run m).2.heap := by
  have hheap := (within_eval condition).roams.heap_eq m
  rw [run_bind]
  revert hheap
  rcases (eval condition).run m with ⟨r, n⟩
  intro hheap
  cases r with
  | ok v => exact hheap ▸ h v n
  | error e => exact .of_eq hheap

theorem changes_exec (s : Stmt Address) (m : Machine) :
    m.heap.Changes (s.written m) ((exec s).run m).2.heap := by
  induction s generalizing m with
  | command pos name args literal => exact .of_eq ((acts_command pos name args literal).heap_eq m)
  | assignElement pos name selector e =>
    have hheap := (within_eval e).roams.heap_eq m
    rw [Stmt.written, exec, found, run_bind, run_bind]
    revert hheap
    rcases (eval e).run m with ⟨r, n⟩
    intro hheap
    cases r with
    | ok v => exact hheap ▸ changes_storeElement name selector v n
    | error e => exact .of_eq hheap
  | dim pos name sizes =>
    have hheap := (within_evalAll sizes).roams.heap_eq m
    rw [exec, run_bind]
    revert hheap
    rcases (evalAll sizes).run m with ⟨r, n⟩
    intro hheap
    cases r with
    | error e => exact .of_eq hheap
    | ok vs =>
      dsimp only
      rw [run_bind, run_get]
      dsimp only
      rw [run_bind]
      cases hdim : n.heap.dim vs with
      | error e => exact .of_eq hheap
      | ok r => exact hheap ▸ .dim hdim
  | map pos name => exact .newMap m.heap
  | when pos condition taken ih =>
    refine changes_of_condition condition m fun v n => ?_
    cases v.isTruthy with
    | true => exact ih n
    | false => exact .refl _
  | choose pos condition taken otherwise ih₁ ih₂ =>
    refine changes_of_condition condition m fun v n => ?_
    cases v.isTruthy with
    | true => exact ih₁ n
    | false => exact ih₂ n
  | read pos targets => exact changes_readAll targets m
  | _ => exact .of_eq ((within_light rfl).heap_eq m)

end Action

/-! ### Elements that are written in a call of the host -/

namespace Machine

/-- The elements that the next turn writes. -/
def writes (m : Machine) : List Slot :=
  match m.upcoming? with
  | some s => s.written (m.beginning s)
  | none => []

/-- The elements that the next turns write, of which there are at most `cycles`. -/
def writesFor : Nat → Machine → List Slot
  | 0, _ => []
  | cycles + 1, m => if m.mayStep then m.writes ++ writesFor cycles m.turn else []

/-- The elements that are written when the host asks for the next event. -/
def writesAt (m : Machine) (clock : Clock) : List Slot :=
  if m.pending.isEmpty then writesFor m.config.maxCycles (m.called clock) else []

theorem heap_load (m : Machine) (source : String) : (m.load source).2.heap = m.heap := by
  unfold load
  rw [heap_compileListing]

theorem heap_beginning (m : Machine) (s : Stmt Address) : (m.beginning s).heap = m.heap :=
  heap_trace _ s.pos

theorem heap_tell (m : Machine) : m.tell.2.heap = m.heap := by
  unfold tell
  split <;> rfl

theorem heap_enter (m : Machine) (line : String) : (m.enter line).heap = m.heap := by
  by_cases hinput : ∃ prompt targets, m.status = .input prompt targets
  · obtain ⟨prompt, targets, hs⟩ := hinput
    rw [enter_of_input hs]
  · rw [enter_of_not_input fun prompt targets hs => hinput ⟨prompt, targets, hs⟩]
    split
    · rfl
    · split
      · rfl
      · have hcompile := m.heap_compile (String.ofList (Text.trim (entry line))) (m.resume.map (·.1))
        unfold runLine
        split <;> rename_i hrun <;> rw [hrun] at hcompile <;> exact hcompile

theorem changes_turn (m : Machine) : m.heap.Changes m.writes m.turn.heap := by
  unfold writes upcoming?
  cases hcode : m.code with
  | none =>
    rw [turn_of_none hcode]
    exact .refl _
  | some block =>
    rw [Option.bind_some]
    cases hs : block.statements[m.pc]? with
    | none =>
      rw [turn_of_end hcode hs]
      exact .refl _
    | some s =>
      have hexec := Action.changes_exec s (m.beginning s)
      rw [heap_beginning] at hexec
      rw [turn_of_beginning hcode hs]
      revert hexec
      rcases (Action.exec s).run (m.beginning s) with ⟨r, n⟩
      intro hexec
      cases r with
      | ok _ => exact hexec
      | error e =>
        dsimp only
        rw [heap_abort]
        exact hexec

theorem changes_runFor (cycles : Nat) (m : Machine) :
    m.heap.Changes (writesFor cycles m) (runFor cycles m).heap := by
  induction cycles generalizing m with
  | zero => exact .refl _
  | succ cycles ih =>
    rw [runFor_succ, writesFor]
    split
    · exact m.changes_turn.trans (ih m.turn)
    · exact .refl _

theorem changes_execute (m : Machine) (clock : Clock) :
    m.heap.Changes (m.writesAt clock) (m.execute clock).2.heap := by
  unfold writesAt
  cases hpending : m.pending with
  | cons e rest =>
    rw [execute_of_cons hpending]
    exact .refl _
  | nil =>
    obtain ⟨outputs, hquantum⟩ := quantum_called m clock
    have hcalled : (m.called clock).heap = m.heap := heap_wake { m with clock := clock }
    rw [execute_of_nil hpending, heap_tell, hquantum]
    exact hcalled ▸ changes_runFor m.config.maxCycles (m.called clock)

end Machine

namespace Session

/-- The elements that are written when the host does something. -/
def writes (s : Session) (clock : Clock) : HostOp → List Slot
  | .execute => s.machine.writesAt clock
  | _ => []

theorem changes_supply {s s' : Session} {value : HostValue} {v : Value}
    (h : s.supply value = .ok (v, s')) : s.machine.heap.Changes [] s'.machine.heap := by
  cases value with
  | scalar => cases h; exact .refl _
  | map => cases h; exact .newMap _
  | held => cases h; exact .refl _
  | array sizes =>
    rw [supply] at h
    cases hdim : s.machine.heap.dim (sizes.map (·.1)) with
    | error e =>
      rw [hdim] at h
      cases h
    | ok r =>
      rw [hdim] at h
      cases h
      exact .dim hdim

theorem changes_serve (s : Session) (clock : Clock) (op : HostOp) :
    s.machine.heap.Changes (s.writes clock op) (s.serve clock op).2.machine.heap := by
  unfold serve writes
  cases op with
  | load source =>
    dsimp only
    exact .of_eq (s.machine.heap_load source)
  | run block addr => exact .refl _
  | enter line => exact .of_eq (s.machine.heap_enter line)
  | execute => exact s.machine.changes_execute clock
  | interrupt => exact .of_eq s.machine.heap_interrupt
  | setListing listing => exact .refl _
  | store name value =>
    dsimp only
    split
    · rename_i hsupply
      have hsupplied := changes_supply hsupply
      exact hsupplied
    · exact .refl _
  | fetch name => exact .refl _

/-! ### What a host may do later -/

/-- The host goes on with one session until it has another one, whatever it defines, runs, and puts
back. Some elements are written in the meantime. -/
inductive Leads (s : Session) : List Slot → Session → Prop where
  | refl : Leads s [] s
  | serve {t : Session} {written : List Slot} (h : Leads s written t) (clock : Clock) (op : HostOp) :
    Leads s (written ++ t.writes clock op) (t.serve clock op).2
  | print {t : Session} {written : List Slot} (h : Leads s written t) (text : String) :
    Leads s written { t with machine := t.machine.print text }
  | defineConstant {t t' : Session} {written : List Slot} {value : HostValue} {v : Value}
    (h : Leads s written t) (name : String) (hv : t.supply value = .ok (v, t')) :
    Leads s written { t' with machine := t'.machine.defineConstant name v }
  | defineFunction {t : Session} {written : List Slot} (h : Leads s written t) (name : String)
    (f : Function) : Leads s written { t with machine := t.machine.defineFunction name f }
  | defineCommand {t : Session} {written : List Slot} (h : Leads s written t) (name : String)
    (c : Command) : Leads s written { t with machine := t.machine.defineCommand name c }
  | snapshot {t : Session} {written : List Slot} (h : Leads s written t) : Leads s written t.snapped
  | restore {t : Session} {written : List Slot} (h : Leads s written t) (snap : Snapshot) :
    Leads s written { t with machine := t.machine.restore snap }

theorem Leads.wrote {s t : Session} {written : List Slot} (h : s.Leads written t) :
    s.machine.heap.Wrote written t.machine.heap := by
  have hend {written : List Slot} {h h' h'' : Heap} (hfirst : h.Wrote written h')
      (hlater : h'.Wrote [] h'') : h.Wrote written h'' :=
    List.append_nil written ▸ hfirst.trans hlater
  induction h with
  | refl => exact .refl _
  | serve h clock op ih => exact ih.trans (changes_serve _ clock op).wrote
  | print h text ih => exact ih
  | defineConstant h name hv ih =>
    exact hend ih (changes_supply hv).wrote
  | defineFunction h name f ih => exact ih
  | defineCommand h name c ih => exact ih
  | snapshot h ih => exact hend ih (.of_extends (snapped_extends _))
  | restore h snap ih => exact ih

end Session

/-! ### What comes back -/

theorem Table.Rel.of_map {σ : Renaming} {t t' : Std.TreeMap String Value}
    (h : Table.Rel (Value.Rel σ) t t') (key : String) {r s : Ref} (hr : t[key]? = some (.map r))
    (hs : t'[key]? = some (.map s)) : σ.rel .map r s := by
  have hkey := h key
  rw [hr, hs] at hkey
  exact (Reply.Rel.fetched (R := Eq) hkey).of_map

/-- A machine that has come back to where another one was. Its variables and its data hold the same,
up to the places of containers, and so do containers unless an element of theirs was written. -/
structure Machine.Back (ρ : Renaming) (written : List Slot) (m again : Machine) : Prop where
  vars : Table.Rel (Value.Rel ρ) m.scope.vars again.scope.vars
  data : DataQueue.Rel ρ m.data again.data
  rest : again.toSnapshot =
    { m.toSnapshot with scope := { m.scope with vars := again.scope.vars }, data := again.data }
  live : ∀ {k r t}, ρ.rel k r t → r < m.heap.count k ∧ t < again.heap.count k
  grid : ∀ {r t}, ρ.rel .array r t → (∀ slot ∈ written, slot.container ≠ (.array, t)) →
    Grid.Rel ρ (m.heap.grid r) (again.heap.grid t)
  dict : ∀ {r t}, ρ.rel .map r t → (∀ slot ∈ written, slot.container ≠ (.map, t)) →
    Dict.Rel ρ (m.heap.dict r) (again.heap.dict t)

/-- Where nothing was written to a container that has come back, all of them hold the same. -/
theorem Machine.Back.heap {ρ : Renaming} {written : List Slot} {m again : Machine}
    (h : m.Back ρ written again)
    (hwritten : ∀ slot ∈ written, ∀ k r t, ρ.rel k r t → slot.container ≠ (k, t)) :
    Heap.Rel ρ m.heap again.heap :=
  ⟨h.live, fun hr => h.grid hr fun slot hslot => hwritten slot hslot _ _ _ hr,
    fun hr => h.dict hr fun slot hslot => hwritten slot hslot _ _ _ hr⟩

namespace Session

variable {s t : Session} {written : List Slot}

theorem Sound.back (hs : s.Sound) (hleads : s.snapped.Leads written t) :
    ∃ ρ : Renaming, s.machine.Back ρ written (t.machine.restore s.machine.snapshot.1) := by
  have hwrote := hleads.wrote
  have hgrows := hwrote.grows
  refine ⟨(hs.renaming hgrows).below s.machine.heap, hs.rel_vars hgrows, hs.rel_data hgrows, rfl,
    fun {k r u} hr => ?_, fun {r u} hr hslots => ?_, fun {r u} hr hslots => ?_⟩
  · exact ⟨hr.2, Nat.lt_of_lt_of_le (hs.live_snapped hgrows hr) (hgrows k)⟩
  · have hkept : t.machine.heap.grid u = s.snapped.machine.heap.grid u :=
      hwrote.grid u (hs.live_snapped hgrows hr) hslots
    change Grid.Rel _ _ (t.machine.heap.grid u)
    rw [hkept]
    exact hs.grid_snapped hgrows hr
  · have hkept : t.machine.heap.dict u = s.snapped.machine.heap.dict u :=
      hwrote.dict u (hs.live_snapped hgrows hr) hslots
    change Dict.Rel _ _ (t.machine.heap.dict u)
    rw [hkept]
    exact hs.dict_snapped hgrows hr

/-- A snapshot that is put back after anything that its host and its programs did, which may include
putting it back before, brings back the variables and the containers of the machine that it was taken
of, except for containers of which an element was written in the meantime. Commands of the host print
and store variables, and do not write elements. -/
theorem kept_snapshot_restored {kept : List Snapshot} (hs : Reachable .uniform s kept)
    (hleads : s.snapped.Leads written t) :
    ∃ ρ : Renaming,
      s.machine.Back ρ written (t.machine.restore s.machine.snapshot.1) ∧
        ((∀ slot ∈ written, ∀ k r u, ρ.rel k r u → slot.container ≠ (k, u)) →
          Heap.Rel ρ s.machine.heap (t.machine.restore s.machine.snapshot.1).heap) := by
  obtain ⟨ρ, hback⟩ := hs.sound.1.back hleads
  exact ⟨ρ, hback, hback.heap⟩

/-- The host of a map has put its snapshot back and entered a line. -/
def mapHolderEntered (line : String) : Session :=
  let back : Session := { mapHolder.snapped with
    machine := mapHolder.snapped.machine.restore mapHolder.machine.snapshot.1 }
  (back.serve {} (.enter line)).2

theorem leads_mapHolderEntered (line : String) :
    mapHolder.snapped.Leads ((mapHolderEntered line).writes {} .execute)
      ((mapHolderEntered line).serve {} .execute).2 :=
  ((Leads.refl.restore _).serve {} (.enter line)).serve {} .execute

/-- A line that writes to a map of its own and takes the other one away changes nothing of what comes
back. -/
theorem kept_snapshot_restored_mapHolder :
    let entered := mapHolderEntered "map c : c(1) = 2 : a = 0"
    let again := (entered.serve {} .execute).2.machine.restore mapHolder.machine.snapshot.1
    entered.writes {} .execute = [.entry 2 "1"] ∧
      ∃ ρ : Renaming, ρ.rel .map 0 1 ∧
        mapHolder.machine.Back ρ [.entry 2 "1"] again ∧
        Dict.Rel ρ (mapHolder.machine.heap.dict 0) (again.heap.dict 1) := by
  intro entered again
  have hwritten : entered.writes {} .execute = [.entry 2 "1"] := by decide +kernel
  have hleads : mapHolder.snapped.Leads [.entry 2 "1"] (entered.serve {} .execute).2 :=
    hwritten ▸ leads_mapHolderEntered _
  obtain ⟨ρ, hback, -⟩ := kept_snapshot_restored (reachable_mapHolder _) hleads
  have hmap : ρ.rel .map 0 1 :=
    hback.vars.of_map "a" (by decide +kernel) (by decide +kernel)
  refine ⟨hwritten, ρ, hmap, hback, hback.dict hmap ?_⟩
  exact List.forall_mem_singleton.mpr (by decide)

/-- A line that writes to the map of a machine that was put back: the map holds what was written when
the same snapshot is put back again, while it held nothing when the snapshot was taken. -/
theorem kept_snapshot_written :
    let entered := mapHolderEntered "a(1) = 5"
    let again := (entered.serve {} .execute).2.machine.restore mapHolder.machine.snapshot.1
    Reachable .uniform mapHolder [] ∧
      mapHolder.snapped.Leads (entered.writes {} .execute) (entered.serve {} .execute).2 ∧
      ¬∃ ρ : Renaming,
        Table.Rel (Value.Rel ρ) mapHolder.machine.scope.vars again.scope.vars ∧
          Heap.Rel ρ mapHolder.machine.heap again.heap := by
  intro entered again
  refine ⟨reachable_mapHolder _, leads_mapHolderEntered _, ?_⟩
  rintro ⟨ρ, hvars, hheap⟩
  have hmap : ρ.rel .map 0 1 := hvars.of_map "a" (by decide +kernel) (by decide +kernel)
  have hsize : (mapHolder.machine.heap.dict 0).size = 0 := by decide +kernel
  have hsize' : (again.heap.dict 1).size = 1 := by decide +kernel
  exact absurd (hsize.symm.trans ((hheap.dict hmap).size_eq.trans hsize')) (by decide)

end Session

end LineBasic
