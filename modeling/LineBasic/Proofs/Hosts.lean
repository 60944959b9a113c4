import LineBasic.Proofs.Courses
import LineBasic.Proofs.SnapshotsAlike

/-!
# Hosts of machines that are alike

Everything that a host can do with a machine, from loading programs to taking snapshots and putting
them back, it can do with two machines at once. If they differ in nothing but the places of their
containers, the numbers of their blocks, and what they remember of the last call, the host gets the
same from both.
-/

namespace LineBasic

set_option autoImplicit false

/-! ### Between calls -/

namespace Machine

/-- The machine without what it remembers of the last call: a new one counts outputs from zero and
brings its own time. -/
def rested (m : Machine) : Machine :=
  { m with outputs := 0, clock := {} }

theorem rested_rested (m : Machine) : m.rested.rested = m.rested := rfl

theorem rested_of_idle {m m' : Machine} (h : m.idle = m'.idle) : m.rested = m'.rested :=
  congrArg (fun x : Machine => { x with clock := {} }) h

theorem load_rested (m : Machine) (source : String) :
    m.rested.load source = ((m.load source).1, (m.load source).2.rested) := by
  unfold load compileListing compile
  dsimp only [rested]
  generalize Program.compile _ _ _ _ = x
  cases x <;> rfl

theorem Moves.rested {f : Machine → Machine} (hf : Moves f)
    (hclock : ∀ (m : Machine) (clock : Clock),
      f { m with clock := clock } = { f m with clock := clock }) (m : Machine) :
    (f m.rested).rested = (f m).rested := by
  have hidle := rested_of_idle (hf.idle m)
  have htime := congrArg Machine.rested (hclock m.idle {})
  exact htime.trans hidle

theorem execute_rested (m : Machine) (clock : Clock) :
    (m.rested.execute clock).1 = (m.execute clock).1 ∧
      (m.rested.execute clock).2.rested = (m.execute clock).2.rested := by
  obtain ⟨hevent, hidle⟩ := execute_idle m clock
  exact ⟨hevent, rested_of_idle hidle⟩

theorem Twins.rested {L : Likeness} {m m' : Machine} (h : m.idle.Twins L m'.idle) :
    m.rested.Twins L m'.rested :=
  h.withClock fun _ => rfl

end Machine

namespace Session

def rested (s : Session) : Session :=
  { s with machine := s.machine.rested }

theorem supply_rested (s : Session) (value : HostValue) :
    s.rested.supply value = (s.supply value).map fun r => (r.1, r.2.rested) := by
  cases value with
  | array sizes =>
    change Except.map _ (s.machine.heap.dim (sizes.map (·.1))) =
      Except.map _ (Except.map _ (s.machine.heap.dim (sizes.map (·.1))))
    cases s.machine.heap.dim (sizes.map (·.1)) <;> rfl
  | scalar => rfl
  | map => rfl
  | held => rfl

/-- What a machine remembers of the last call has no influence on the next operation. -/
theorem serve_rested (s : Session) (clock : Clock) (op : HostOp) :
    (s.rested.serve clock op).1 = (s.serve clock op).1 ∧
      (s.rested.serve clock op).2.rested = (s.serve clock op).2.rested := by
  have hmachine {m m' : Machine} (h : m.rested = m'.rested) :
      (⟨m, s.held⟩ : Session).rested = (⟨m', s.held⟩ : Session).rested :=
    congrArg (fun m => (⟨m, s.held⟩ : Session)) h
  cases op with
  | load source =>
    have hload := s.machine.load_rested source
    have hresult : (s.machine.rested.load source).1 = (s.machine.load source).1 := by rw [hload]
    have hrested : (s.machine.rested.load source).2.rested = (s.machine.load source).2.rested := by
      rw [hload, Machine.rested_rested]
    exact ⟨congrArg Reply.loaded hresult, hmachine hrested⟩
  | enter line =>
    refine ⟨rfl, hmachine ?_⟩
    exact (Machine.moves_enter line).rested (fun m clock => m.enter_atClock clock line) s.machine
  | interrupt =>
    refine ⟨rfl, hmachine ?_⟩
    exact Machine.moves_interrupt.rested Machine.interrupt_atClock s.machine
  | execute =>
    obtain ⟨hevent, hrested⟩ := s.machine.execute_rested clock
    exact ⟨congrArg Reply.event hevent, hmachine hrested⟩
  | store name value =>
    unfold serve
    dsimp only
    rw [supply_rested]
    cases s.supply value <;> exact ⟨rfl, rfl⟩
  | run => exact ⟨rfl, rfl⟩
  | setListing => exact ⟨rfl, rfl⟩
  | fetch => exact ⟨rfl, rfl⟩

end Session

/-! ### What hosts do -/

/-- What a host can do with a machine and with the snapshots that it keeps. -/
inductive HostAct (ext : Extensions) where
  | serve (op : HostOp)
  | print (text : String)
  | defineConstant (name : String) (value : HostValue)
  | defineFunction (name : String) (f : Function) (hf : ext.function name f)
  | defineCommand (name : String) (c : Command) (hc : ext.command name c)
  | snapshot
  /-- Puts back the snapshot of that number. -/
  | restore (i : Nat)

/-- A session whose host keeps the snapshots that it takes. -/
structure Keeper extends Session where
  kept : List Snapshot := []

namespace Keeper

variable {ext : Extensions}

/-- What the host gets for something that it does, at some time, and how things stand then. -/
def act (k : Keeper) (clock : Clock) : HostAct ext → Reply × Keeper
  | .serve op =>
    let r := k.serve clock op
    (r.1, { k with toSession := r.2 })
  | .print text => (.done, { k with machine := k.machine.print text })
  | .defineConstant name value =>
    match k.supply value with
    | .ok (v, s) =>
      (.done, { k with toSession := { s with machine := s.machine.defineConstant name v } })
    | .error e => (.refused e, k)
  | .defineFunction name f _ => (.done, { k with machine := k.machine.defineFunction name f })
  | .defineCommand name c _ => (.done, { k with machine := k.machine.defineCommand name c })
  | .snapshot =>
    let r := k.machine.snapshot
    (.done, { k with machine := r.2, kept := k.kept ++ [r.1] })
  | .restore i =>
    match k.kept[i]? with
    | some snap => (.done, { k with machine := k.machine.restore snap })
    | none => (.done, k)

def actAll (k : Keeper) : List (HostAct ext × Clock) → List Reply × Keeper
  | [] => ([], k)
  | (a, clock) :: acts =>
    let r := k.act clock a
    let rest := r.2.actAll acts
    (r.1 :: rest.1, rest.2)

def rested (k : Keeper) : Keeper :=
  { k with machine := k.machine.rested }

theorem act_rested (k : Keeper) (clock : Clock) (a : HostAct ext) :
    (k.rested.act clock a).1 = (k.act clock a).1 ∧
      (k.rested.act clock a).2.rested = (k.act clock a).2.rested := by
  cases a with
  | serve op =>
    obtain ⟨hreply, hrested⟩ := k.serve_rested clock op
    exact ⟨hreply, congrArg (fun s => (⟨s, k.kept⟩ : Keeper)) hrested⟩
  | defineConstant name value =>
    have hsupply : k.rested.supply value = (k.supply value).map fun r => (r.1, r.2.rested) :=
      k.supply_rested value
    unfold act
    dsimp only
    rw [hsupply]
    cases k.supply value <;> exact ⟨rfl, rfl⟩
  | restore i =>
    have hkept : k.rested.kept = k.kept := rfl
    unfold act
    dsimp only
    rw [hkept]
    cases k.kept[i]? <;> exact ⟨rfl, rfl⟩
  | print => exact ⟨rfl, rfl⟩
  | defineFunction => exact ⟨rfl, rfl⟩
  | defineCommand => exact ⟨rfl, rfl⟩
  | snapshot => exact ⟨rfl, rfl⟩

end Keeper

/-! ### Hosts that do the same -/

/-- The same act, with a block that corresponds. -/
inductive HostAct.Rel {ext : Extensions} (R : Block → Block → Prop) :
    HostAct ext → HostAct ext → Prop where
  | same (a : HostAct ext) : Rel R a a
  | serve {op op' : HostOp} (h : op.Rel R op') : Rel R (.serve op) (.serve op')

/-- Keepers whose machines are the same but for what they are compared by. -/
structure Keeper.Alike (L : Likeness) (k k' : Keeper) : Prop where
  session : k.toSession.Alike L k'.toSession
  kept : List.Forall₂ (Snapshot.Twins L.numbering (L.below k.machine.heap)) k.kept k'.kept

namespace Keeper.Alike

variable {L : Likeness} {k k' : Keeper} (h : Alike L k k')
include h

theorem withMachine {m m' : Machine} (hm : m.idle.Twins L m'.idle)
    (hgrows : k.machine.heap.Grows m.heap) :
    Alike L { k with machine := m } { k' with machine := m' } :=
  ⟨h.session.withMachine hm hgrows, h.kept.imp fun _ _ => .mono (hgrows.below L.refs)⟩

theorem rested : Alike L k.rested k'.rested :=
  h.withMachine h.session.machine.rested.idle (.refl _)

theorem serve (htimely : L.timely) (clock : Clock) {op op' : HostOp}
    (hop : op.Rel L.numbering.block op') :
    Reply.Rel L.numbering.block (L.below (k.serve clock op).2.machine.heap) (k.serve clock op).1
        (k'.serve clock op').1 ∧
      Alike L ⟨(k.serve clock op).2, k.kept⟩ ⟨(k'.serve clock op').2, k'.kept⟩ ∧
      k.machine.heap.Grows (k.serve clock op).2.machine.heap := by
  obtain ⟨hreply, hserved, hgrows⟩ := h.session.serve (fun _ => rfl) hop fun _ => htimely
  exact ⟨hreply, ⟨hserved, h.kept.imp fun _ _ => .mono (hgrows.below L.refs)⟩, hgrows⟩

theorem act (htimely : L.timely) (clock : Clock) {a a' : HostAct .uniform}
    (ha : a.Rel L.numbering.block a') :
    Reply.Rel L.numbering.block (L.below (k.act clock a).2.machine.heap) (k.act clock a).1
        (k'.act clock a').1 ∧
      Alike L (k.act clock a).2 (k'.act clock a').2 ∧
      k.machine.heap.Grows (k.act clock a).2.machine.heap := by
  rcases ha with _ | hop
  case serve => exact h.serve htimely clock hop
  cases a with
  | serve op => exact h.serve htimely clock (.same op)
  | print text =>
    exact ⟨.done, h.withMachine (h.session.machine.print text).idle (.refl _), .refl _⟩
  | defineConstant name value =>
    have hsupply := h.session.supply value
    unfold Keeper.act
    dsimp only
    revert hsupply
    generalize k.supply value = x
    generalize k'.supply value = y
    intro hsupply
    cases hsupply with
    | error he =>
      cases he
      exact ⟨.refused _, h, .refl _⟩
    | ok hr =>
      obtain ⟨halike, hgrows, hvalue⟩ := hr
      refine ⟨.done, ⟨halike.withMachine ?_ (.refl _), ?_⟩, hgrows⟩
      · exact halike.machine.defineConstant name hvalue
      · exact h.kept.imp fun _ _ => .mono (hgrows.below L.refs)
  | defineFunction name f hf =>
    exact ⟨.done, h.withMachine (h.session.machine.defineFunction hf) (.refl _), .refl _⟩
  | defineCommand name c hc =>
    exact ⟨.done, h.withMachine (h.session.machine.defineCommand hc) (.refl _), .refl _⟩
  | snapshot =>
    obtain ⟨hsnapshot, hm, hgrows⟩ := h.session.machine.snapshot
    refine ⟨.done, ⟨h.session.withMachine hm hgrows, ?_⟩, hgrows⟩
    exact List.rel_append (h.kept.imp fun _ _ => .mono (hgrows.below L.refs)) (.cons hsnapshot .nil)
  | restore i =>
    unfold Keeper.act
    dsimp only
    rcases optionRel_cases (forall₂_getElem? h.kept i) with
      ⟨hnone, hnone'⟩ | ⟨snap, snap', hsome, hsome', hsnap⟩
    · rw [hnone, hnone']
      exact ⟨.done, h, .refl _⟩
    · rw [hsome, hsome']
      exact ⟨.done, h.withMachine (h.session.machine.restore hsnap) (.refl _), .refl _⟩

end Keeper.Alike

namespace Keeper

/-- Keepers that differ in block numbers, in the places of containers and in what their machines
remember of the last call. -/
def Similar (ρ : Renaming) (base : Heap) (k k' : Keeper) : Prop :=
  k.rested.Alike ⟨.free, ρ, base, True⟩ k'.rested

/-- Whatever hosts do from now on, they get the same from both but for block numbers: up to a renaming,
which the containers follow too. -/
def Indistinct (ρ : Renaming) (k k' : Keeper) : Prop :=
  ∀ acts acts' : List (HostAct .uniform × Clock),
    List.Forall₂ (fun a a' => a.1.Rel Block.Renumbered a'.1 ∧ a.2 = a'.2) acts acts' →
      let r := k.actAll acts
      let r' := k'.actAll acts'
      List.Forall₂ (Reply.Rel Block.Renumbered (ρ.below r.2.machine.heap)) r.1 r'.1 ∧
        Heap.Rel (ρ.below r.2.machine.heap) r.2.machine.heap r'.2.machine.heap

namespace Similar

variable {ρ : Renaming} {base : Heap} {k k' : Keeper}

theorem act (h : k.Similar ρ base k') (clock : Clock) {a a' : HostAct .uniform}
    (ha : a.Rel Block.Renumbered a') :
    Reply.Rel Block.Renumbered (ρ.below (k.act clock a).2.machine.heap) (k.act clock a).1
        (k'.act clock a').1 ∧
      (k.act clock a).2.Similar ρ base (k'.act clock a').2 ∧
      k.machine.heap.Grows (k.act clock a).2.machine.heap := by
  obtain ⟨hreply, hrested⟩ := k.act_rested clock a
  obtain ⟨hreply', hrested'⟩ := k'.act_rested clock a'
  have hheap := congrArg (fun x : Keeper => x.machine.heap) hrested
  change (k.rested.act clock a).2.machine.heap = (k.act clock a).2.machine.heap at hheap
  obtain ⟨hrel, halike, hgrows⟩ := Alike.act h trivial clock ha
  have hdone := halike.rested
  rw [hreply, hreply', hheap] at hrel
  rw [hheap] at hgrows
  rw [hrested, hrested'] at hdone
  exact ⟨hrel, hdone, hgrows⟩

/-- What hosts get from two keepers that are similar is the same up to renaming, one act after
another. -/
theorem actAll (h : k.Similar ρ base k') {acts acts' : List (HostAct .uniform × Clock)}
    (hacts : List.Forall₂ (fun a a' => a.1.Rel Block.Renumbered a'.1 ∧ a.2 = a'.2) acts acts') :
    List.Forall₂ (Reply.Rel Block.Renumbered (ρ.below (k.actAll acts).2.machine.heap))
        (k.actAll acts).1 (k'.actAll acts').1 ∧
      (k.actAll acts).2.Similar ρ base (k'.actAll acts').2 ∧
      k.machine.heap.Grows (k.actAll acts).2.machine.heap := by
  induction hacts generalizing k k' with
  | nil => exact ⟨.nil, h, .refl _⟩
  | @cons a a' acts acts' ha _ ih =>
    obtain ⟨a, clock⟩ := a
    obtain ⟨a', clock'⟩ := a'
    obtain ⟨ha, hclock⟩ := ha
    obtain rfl : clock = clock' := hclock
    obtain ⟨hreply, hacted, hgrows⟩ := h.act clock ha
    obtain ⟨hreplies, hdone, hgrows'⟩ := ih hacted
    exact ⟨.cons (hreply.mono (hgrows'.below ρ)) hreplies, hdone, hgrows.trans hgrows'⟩

theorem indistinct (h : k.Similar ρ base k') : k.Indistinct ρ k' := by
  intro acts acts' hacts
  obtain ⟨hreplies, hdone, -⟩ := h.actAll hacts
  exact ⟨hreplies, hdone.session.machine.heap.rel⟩

end Similar

end Keeper

end LineBasic
