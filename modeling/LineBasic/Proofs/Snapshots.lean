import LineBasic.Proofs.CopyRuns
import LineBasic.Proofs.Suspension

/-!
# Snapshots

A machine that was restored goes on as if nothing had happened since the snapshot. Its containers are
copies, which nothing could reach in the meantime, so it is the machine of the snapshot up to
renaming. This is about what the host gets from the machine after it was restored: a container that
the host holds from before is not the copy that the restored machine has in its place.
-/

namespace LineBasic

set_option autoImplicit false

/-! ### Everything in its own place -/

/-- Every container in its own place. -/
def Renaming.identity : Renaming where
  rel _ r s := r = s
  one_to_one hr hr' := by rw [hr, hr']

theorem Value.ref?_of_scalar {v : Value} (h : v.isContainer = false) : v.ref? = none := by
  cases v with
  | array => cases h
  | map => cases h
  | _ => rfl

theorem Value.rel_self {σ : Renaming} {v : Value} (h : ∀ k r, v.ref? = some (k, r) → σ.rel k r r) :
    Value.Rel σ v v := by
  cases v with
  | array r => exact .array (h .array r rfl)
  | map r => exact .map (h .map r rfl)
  | _ => exact .scalar rfl

theorem Value.Rel.exists_rel {σ : Renaming} {v w : Value} (h : Value.Rel σ v w) {k : Kind} {r : Ref}
    (hr : v.ref? = some (k, r)) : ∃ s, σ.rel k r s := by
  cases h with
  | scalar hv => cases (ref?_of_scalar hv).symm.trans hr
  | array h => cases hr; exact ⟨_, h⟩
  | map h => cases hr; exact ⟨_, h⟩

theorem Value.Rel.live {ρ : Renaming} {h : Heap} {v w : Value} (hvw : Value.Rel (ρ.below h) v w) :
    h.Live v := by
  intro k r hr
  obtain ⟨s, hs⟩ := hvw.exists_rel hr
  exact hs.2

theorem Value.Rel.eq_of_identity {h : Heap} {v w : Value}
    (hvw : Value.Rel (Renaming.identity.below h) v w) : v = w := by
  cases hvw with
  | scalar => rfl
  | array h => rw [show _ = _ from h.1]
  | map h => rw [show _ = _ from h.1]

theorem Heap.Live.mono {h h' : Heap} {v : Value} (hv : h.Live v) (hgrows : h.Grows h') : h'.Live v :=
  fun k r hr => Nat.lt_of_lt_of_le (hv k r hr) (hgrows k)

theorem Heap.Live.rel_identity {h : Heap} {v : Value} (hv : h.Live v) :
    Value.Rel (Renaming.identity.below h) v v :=
  Value.rel_self fun k r hr => ⟨rfl, hv k r hr⟩

theorem forall₂_left {α β : Type} {R : α → β → Prop} {P : α → Prop} (hP : ∀ a b, R a b → P a)
    {l : List α} {l' : List β} (h : List.Forall₂ R l l') : ∀ a ∈ l, P a := by
  induction h with
  | nil => exact nofun
  | cons hab _ ih =>
    intro a ha
    rcases List.mem_cons.mp ha with rfl | ha
    · exact hP _ _ hab
    · exact ih a ha

theorem Grid.rel_self {σ : Renaming} {g : Grid} (h : ∀ v ∈ g.cells.toList, Value.Rel σ v v) :
    Grid.Rel σ g g :=
  ⟨rfl, List.forall₂_same.mpr h⟩

theorem Table.rel_self {α : Type} {R : α → α → Prop} {t : Std.TreeMap String α}
    (h : ∀ e ∈ t.toList, R e.2 e.2) : Table.Rel R t t := by
  intro key
  cases hkey : t[key]? with
  | none => exact .none
  | some a => exact .some (h (key, a) (Std.TreeMap.mem_toList_iff_getElem?_eq_some.mpr hkey))

theorem Table.rel_map {α : Type} {R : α → α → Prop} {t : Std.TreeMap String α} {f : α → α}
    (h : ∀ e ∈ t.toList, R e.2 (f e.2)) : Table.Rel R t (t.map fun _ => f) := by
  intro key
  rw [Std.TreeMap.getElem?_map]
  cases hkey : t[key]? with
  | none => exact .none
  | some a => exact .some (h (key, a) (Std.TreeMap.mem_toList_iff_getElem?_eq_some.mpr hkey))

theorem Table.Rel.map {α β γ δ : Type} {R : α → β → Prop} {S : γ → δ → Prop}
    {t : Std.TreeMap String α} {t' : Std.TreeMap String β} {f : α → γ} {g : β → δ}
    (h : Table.Rel R t t') (hfg : ∀ a b, R a b → S (f a) (g b)) :
    Table.Rel S (t.map fun _ => f) (t'.map fun _ => g) := by
  intro key
  rw [Std.TreeMap.getElem?_map, Std.TreeMap.getElem?_map]
  have hkey := h key
  revert hkey
  generalize t[key]? = x
  generalize t'[key]? = y
  intro hkey
  cases hkey with
  | some hab => exact .some (hfg _ _ hab)
  | none => exact .none

theorem Heap.Twins.closed {base h h' : Heap} (htwins : Heap.Twins .identity base h h') : h.Closed := by
  intro k r hr v hv
  have hrel : (Renaming.identity.below h).rel k r r := ⟨rfl, hr⟩
  cases k with
  | array => exact forall₂_left (fun _ _ h => Value.Rel.live h) (htwins.rel.grid hrel).cells v hv
  | map =>
    obtain ⟨e, he, rfl⟩ := List.mem_map.mp hv
    exact forall₂_left (fun _ _ h => Value.Rel.live h.2) (Table.Rel.toList (htwins.rel.dict hrel)) e he

theorem Heap.Closed.twins {h : Heap} (hclosed : h.Closed) : Heap.Twins .identity {} h h where
  rel := by
    refine ⟨fun hr => ⟨hr.2, hr.1 ▸ hr.2⟩, ?_, ?_⟩
    · rintro r _ ⟨rfl, hr⟩
      exact Grid.rel_self fun v hv => (hclosed .array r hr v hv).rel_identity
    · rintro r _ ⟨rfl, hr⟩
      exact Table.rel_self fun e he =>
        (hclosed .map r hr e.2 (List.mem_map_of_mem he)).rel_identity
  fresh _ _ := rfl
  spares := ⟨fun k => by cases k <;> exact Nat.zero_le _, fun s hs => absurd rfl (hs s),
    fun s hs => absurd rfl (hs s)⟩

/-! ### Copies refer to nothing that is missing -/

namespace Heap

variable {h h' : Heap} {m : Reached} {k : Kind}

theorem Extends.contents {added : Kind → Nat} (hext : h.Extends added h') {r : Ref}
    (hr : r < h.count k) : h'.contents (k.value r) = h.contents (k.value r) := by
  cases k with
  | array => exact congrArg (·.cells.toList) (hext.grid r hr)
  | map => exact congrArg (·.toList.map (·.2)) (hext.dict r hr)

theorem contents_addCopies {i : Nat} {r : Ref} (hi : (m.order k)[i]? = some r) :
    (h.addCopies m).contents (k.value (h.count k + i)) =
      (h.contents (k.value r)).map (h.moved m) := by
  cases k with
  | array =>
    refine (congrArg (·.cells.toList) (grid_addCopies hi)).trans ?_
    rw [Grid.cells_mapCells]
    exact Array.toList_map
  | map =>
    refine (congrArg (·.toList.map (·.2)) (dict_addCopies hi)).trans ?_
    change ((h.dict r).mapValues (h.moved m)).entries.toList.map (·.2) =
      ((h.dict r).entries.toList.map (·.2)).map (h.moved m)
    rw [((h.dict r).mapValues_equiv _).toList_eq, Std.TreeMap.toList_map, List.map_map, List.map_map]
    rfl

theorem Reached.Indexed.lt_size (hm : m.Indexed) {r : Ref} {i : Nat} (hr : m.place k r = some i) :
    i < (m.order k).size :=
  (Array.getElem?_eq_some_iff.mp ((hm k r i).mp hr)).1

theorem Live.moved (hm : m.Indexed) {v : Value} (hv : h.Live v) :
    (h.addCopies m).Live (h.moved m v) := by
  have hext := h.addCopies_extends m
  cases hv' : v.ref? with
  | none =>
    rw [moved_scalar hv']
    exact hv.mono hext.grows
  | some c =>
    obtain ⟨k, r⟩ := c
    cases hplace : m.place k r with
    | none =>
      rw [moved_other hv' hplace]
      exact hv.mono hext.grows
    | some i =>
      rw [moved_met hv' hplace]
      intro k' r' hr'
      rw [ref?_value] at hr'
      cases hr'
      rw [hext.count]
      exact Nat.add_lt_add_left (hm.lt_size hplace) _

theorem Closed.addCopies (hclosed : h.Closed) {roots : List Value}
    (hroots : ∀ v ∈ roots, h.Live v) : (h.addCopies (h.reachable roots)).Closed := by
  have hm := h.indexed_reachable roots
  have hext := h.addCopies_extends (h.reachable roots)
  intro k r hr v hv
  by_cases hold : r < h.count k
  · rw [hext.contents hold] at hv
    exact (hclosed k r hold v hv).mono hext.grows
  · obtain ⟨i, rfl⟩ := Nat.exists_eq_add_of_le (Nat.le_of_not_lt hold)
    rw [hext.count] at hr
    have hi := Array.getElem?_eq_getElem (Nat.lt_of_add_lt_add_left hr)
    rw [contents_addCopies hi] at hv
    obtain ⟨w, hw, rfl⟩ := List.mem_map.mp hv
    have hmet := (hm k _ i).mpr hi
    have hlive := hclosed.live_reachable hroots (Option.isSome_iff_exists.mpr ⟨i, hmet⟩)
    exact (hclosed k _ hlive w hw).moved hm

end Heap

/-! ### Sessions without missing containers -/

/-- A snapshot that refers to no missing container. -/
structure Snapshot.Sound (h : Heap) (snap : Snapshot) : Prop where
  scope : Scope.Rel (Renaming.identity.below h) snap.scope snap.scope
  data : DataQueue.Rel (Renaming.identity.below h) snap.data snap.data

theorem Snapshot.Sound.mono {h h' : Heap} {snap : Snapshot} (hs : snap.Sound h) (hgrows : h.Grows h') :
    snap.Sound h' :=
  ⟨hs.scope.mono (hgrows.below _), hs.data.mono (hgrows.below _)⟩

/-- What a snapshot copies. -/
def Machine.roots (m : Machine) : List Value :=
  m.scope.values ++ m.data.values.toList

theorem Machine.snapshot_eq (m : Machine) : m.snapshot =
    ({ m.toSnapshot with
        scope := m.scope.mapVars (m.heap.moved (m.heap.reachable m.roots))
        data := m.data.mapValues (m.heap.moved (m.heap.reachable m.roots)) },
      { m with heap := m.heap.addCopies (m.heap.reachable m.roots) }) := by
  unfold snapshot
  rw [Heap.copyFrom_eq]
  rfl

/-- A session that refers to no missing container. -/
def Session.Sound (s : Session) : Prop :=
  s.Alike ⟨.exact, .identity, {}, True⟩ s

namespace Machine.Twins

variable {L : Likeness} {m m' : Machine}

theorem defineConstant (h : Twins L m m') (name : String) {v w : Value}
    (hvw : Value.Rel (L.below m.heap) v w) :
    Twins L (m.defineConstant name v) (m'.defineConstant name w) :=
  h.withScope (h.scope.define name hvw)

theorem defineFunction (h : Twins L m m') {name : String} {f : Function}
    (hf : f.Uniform (Text.fold name ∈ timedNames)) :
    Twins L (m.defineFunction name f) (m'.defineFunction name f) := by
  refine ⟨congrArg (·.defineFunction name f) h.rest, h.stock, fun other f' hf' => ?_,
    h.uniform.commands⟩
  change (m.functions.insert (Text.fold name) f)[other]? = some f' at hf'
  rw [Std.TreeMap.getElem?_insert] at hf'
  split at hf'
  · rename_i heq
    cases hf'
    rw [← Std.LawfulEqCmp.eq_of_compare heq]
    exact hf
  · exact h.uniform.functions other f' hf'

theorem defineCommand (h : Twins L m m') {name : String} {c : Command}
    (hc : c.action.Uniform (Text.fold name ∈ timedNames)) :
    Twins L (m.defineCommand name c) (m'.defineCommand name c) := by
  refine ⟨congrArg (·.defineCommand name c) h.rest, h.stock, h.uniform.functions,
    fun other c' hc' => ?_⟩
  change (m.commands.insert (Text.fold name) c)[other]? = some c' at hc'
  rw [Std.TreeMap.getElem?_insert] at hc'
  split at hc'
  · rename_i heq
    cases hc'
    rw [← Std.LawfulEqCmp.eq_of_compare heq]
    exact hc
  · exact h.uniform.commands other c' hc'

theorem defineFunctions {fs : List (String × Function)}
    (hfs : ∀ f ∈ fs, f.2.Uniform (Text.fold f.1 ∈ timedNames)) (h : Twins L m m') :
    Twins L (fs.foldl (fun m f => m.defineFunction f.1 f.2) m)
      (fs.foldl (fun m f => m.defineFunction f.1 f.2) m') := by
  induction fs generalizing m m' with
  | nil => exact h
  | cons f fs ih =>
    obtain ⟨hf, hfs⟩ := List.forall_mem_cons.mp hfs
    exact ih hfs (h.defineFunction hf)

theorem defineCommands {cs : List (String × Command)}
    (hcs : ∀ c ∈ cs, c.2.action.Uniform (Text.fold c.1 ∈ timedNames))
    (h : Twins L m m') :
    Twins L (cs.foldl (fun m c => m.defineCommand c.1 c.2) m)
      (cs.foldl (fun m c => m.defineCommand c.1 c.2) m') := by
  induction cs generalizing m m' with
  | nil => exact h
  | cons c cs ih =>
    obtain ⟨hc, hcs⟩ := List.forall_mem_cons.mp hcs
    exact ih hcs (h.defineCommand hc)

end Machine.Twins

theorem Command.builtins_uniform :
    ∀ c ∈ Command.builtins, c.2.action.Uniform (Text.fold c.1 ∈ timedNames) := by
  simp only [Command.builtins, List.forall_mem_cons, CommandAction.Uniform]
  exact ⟨nofun, nofun, nofun, fun _ => by decide +kernel, nofun, nofun, nofun, nofun, nofun, nofun,
    nofun, nofun, nofun, nofun, nofun, nofun, nofun, nofun, nofun, nofun⟩

theorem Heap.closed_empty : Heap.Closed {} := by
  intro k r hr
  cases k <;> exact absurd hr (Nat.not_lt_zero r)

theorem Machine.twins_new (config : Config) (random : Random) :
    (Machine.new config random).Twins ⟨.exact, .identity, {}, True⟩ (Machine.new config random) := by
  have hscope : Scope.Rel (Renaming.identity.below {}) .standard .standard :=
    Scope.Rel.define (Scope.Rel.define ⟨.empty, .empty⟩ _ (.scalar rfl)) _ (.scalar rfl)
  unfold Machine.new
  apply Twins.defineFunctions Function.builtins_uniform
  apply Twins.defineCommands Command.builtins_uniform
  refine ⟨rfl, ⟨Links.rel_self _ _ rfl, fun _ => rfl, fun _ => rfl, hscope, .empty,
    Heap.closed_empty.twins⟩, fun name f hf => ?_, fun name c hc => ?_⟩
  · rw [Std.TreeMap.getElem?_emptyc] at hf
    cases hf
  · rw [Std.TreeMap.getElem?_emptyc] at hc
    cases hc

/-- Functions and commands of a host that may look at everything but the places of containers, and
those with other than timed names not at the clock or the random source either. -/
def Extensions.uniform : Extensions where
  function name f := f.Uniform (Text.fold name ∈ timedNames)
  command name c := c.action.Uniform (Text.fold name ∈ timedNames)

namespace Session

variable {s : Session}

namespace Sound

theorem closed (hs : s.Sound) : s.machine.heap.Closed :=
  hs.machine.heap.closed

theorem live_roots (hs : s.Sound) : ∀ v ∈ s.machine.roots, s.machine.heap.Live v := by
  intro v hv
  rcases List.mem_append.mp hv with hv | hv
  · obtain ⟨e, he, rfl⟩ := List.mem_map.mp hv
    exact forall₂_left (fun _ _ h => Value.Rel.live h.2) hs.machine.scope.vars.toList e he
  · exact forall₂_left (fun _ _ h => Value.Rel.live h) hs.machine.data.values v hv

theorem serve (hs : s.Sound) (clock : Clock) (op : HostOp) : (s.serve clock op).2.Sound ∧
    s.machine.heap.Grows (s.serve clock op).2.machine.heap :=
  (Alike.serve hs (fun _ => rfl) (.same op) fun _ => trivial).2

theorem supply (hs : s.Sound) {value : HostValue} {v : Value} {s' : Session}
    (h : s.supply value = .ok (v, s')) : s'.Sound ∧ s.machine.heap.Grows s'.machine.heap ∧
      Value.Rel (Renaming.identity.below s'.machine.heap) v v := by
  have hsupply := Alike.supply hs value
  rw [h] at hsupply
  cases hsupply with
  | ok hr => exact hr

theorem snapshot (hs : s.Sound) : Session.Sound { s with machine := s.machine.snapshot.2 } ∧
    s.machine.snapshot.1.Sound s.machine.snapshot.2.heap ∧
      s.machine.heap.Grows s.machine.snapshot.2.heap := by
  rw [Machine.snapshot_eq]
  have hm := s.machine.heap.indexed_reachable s.machine.roots
  have hgrows := (s.machine.heap.addCopies_extends (s.machine.heap.reachable s.machine.roots)).grows
  have hclosed := hs.closed.addCopies hs.live_roots
  have hmoved (v w : Value) (hvw : Value.Rel (Renaming.identity.below s.machine.heap) v w) :
      Value.Rel (Renaming.identity.below
          (s.machine.heap.addCopies (s.machine.heap.reachable s.machine.roots)))
        (s.machine.heap.moved (s.machine.heap.reachable s.machine.roots) v)
        (s.machine.heap.moved (s.machine.heap.reachable s.machine.roots) w) := by
    rw [← hvw.eq_of_identity]
    exact (hvw.live.moved hm).rel_identity
  refine ⟨⟨hs.machine.withHeap hclosed.twins hgrows, hs.held.imp fun _ _ => .mono (hgrows.below _)⟩,
    ⟨⟨hs.machine.scope.vars.map hmoved, hs.machine.scope.constants.mono
      fun _ _ => .mono (hgrows.below _)⟩, ?_, rfl⟩, hgrows⟩
  change List.Forall₂ _ (s.machine.data.values.map _).toList (s.machine.data.values.map _).toList
  rw [Array.toList_map, List.forall₂_map_left_iff, List.forall₂_map_right_iff]
  exact hs.machine.data.values.imp hmoved

theorem restore (hs : s.Sound) {snap : Snapshot} (hsnap : snap.Sound s.machine.heap) :
    Session.Sound { s with machine := s.machine.restore snap } :=
  ⟨⟨rfl, ⟨Links.rel_self _ _ rfl, fun _ => rfl, fun _ => rfl, hsnap.scope, hsnap.data,
    hs.machine.heap⟩, hs.machine.uniform.functions, hs.machine.uniform.commands⟩, hs.held⟩

end Sound

/-- Neither a session that a host can come to nor a snapshot that it keeps refers to a missing
container. -/
theorem Reachable.sound {kept : List Snapshot} (h : Reachable .uniform s kept) :
    s.Sound ∧ ∀ snap ∈ kept, snap.Sound s.machine.heap := by
  induction h with
  | new config random => exact ⟨⟨(Machine.twins_new config random).idle, .nil⟩, nofun⟩
  | serve _ clock op ih =>
    obtain ⟨hserved, hgrows⟩ := ih.1.serve clock op
    exact ⟨hserved, fun snap hsnap => (ih.2 snap hsnap).mono hgrows⟩
  | print _ text ih => exact ⟨⟨(ih.1.machine.print text).idle, ih.1.held⟩, ih.2⟩
  | defineConstant _ name hv ih =>
    obtain ⟨hsupplied, hgrows, hvalue⟩ := ih.1.supply hv
    exact ⟨⟨hsupplied.machine.defineConstant name hvalue, hsupplied.held⟩,
      fun snap hsnap => (ih.2 snap hsnap).mono hgrows⟩
  | defineFunction _ hf ih => exact ⟨⟨ih.1.machine.defineFunction hf, ih.1.held⟩, ih.2⟩
  | defineCommand _ hc ih => exact ⟨⟨ih.1.machine.defineCommand hc, ih.1.held⟩, ih.2⟩
  | snapshot _ ih =>
    obtain ⟨hsound, hsnap, hgrows⟩ := ih.1.snapshot
    refine ⟨hsound, fun snap hmem => ?_⟩
    rcases List.mem_cons.mp hmem with rfl | hmem
    · exact hsnap
    · exact (ih.2 snap hmem).mono hgrows
  | restore _ hsnap ih => exact ⟨ih.1.restore (ih.2 _ hsnap), ih.2⟩

end Session

/-! ### What happens after a snapshot leaves it alone -/

theorem skip_injective (n a r r' : Nat) :
    r = r' ↔ (if r < n then r else r + a) = if r' < n then r' else r' + a := by
  split <;> split <;> omega

theorem ne_skip {a i : Nat} (hi : i < a) (n r : Nat) : n + i ≠ if r < n then r else r + a := by
  split <;> omega

/-- Passes over containers that were added behind all containers of a heap. -/
def Renaming.past (h : Heap) (added : Kind → Nat) : Renaming where
  rel k r s := s = if r < h.count k then r else r + added k
  one_to_one := by
    rintro k r _ r' _ rfl rfl
    exact skip_injective _ _ r r'

namespace Heap

variable {h h' : Heap} {added : Kind → Nat}

theorem identity_le_past : (Renaming.identity.below h).Le ((Renaming.past h added).below h) := by
  rintro k r _ ⟨rfl, hr⟩
  exact ⟨(if_pos hr).symm, hr⟩

theorem Closed.twins_past (hclosed : h.Closed) (hext : h.Extends added h') :
    Heap.Twins (.past h added) h' h h' where
  rel := by
    have hself := hclosed.twins.rel
    refine ⟨fun {k r s} hr => ?_, fun {r s} hr => ?_, fun {r s} hr => ?_⟩
    · obtain rfl : s = r := hr.1.trans (if_pos hr.2)
      exact ⟨hr.2, Nat.lt_of_lt_of_le hr.2 (hext.grows k)⟩
    · obtain rfl : s = r := hr.1.trans (if_pos hr.2)
      rw [hext.grid s hr.2]
      exact (hself.grid ⟨rfl, hr.2⟩).mono identity_le_past
    · obtain rfl : s = r := hr.1.trans (if_pos hr.2)
      rw [hext.dict s hr.2]
      exact (hself.dict ⟨rfl, hr.2⟩).mono identity_le_past
  fresh k i := by
    change h'.count k + i = if h.count k + i < h.count k then _ else _
    rw [hext.count, if_neg (by omega)]
    omega
  spares := ⟨.refl _, fun _ _ => rfl, fun _ _ => rfl⟩

theorem not_past {k : Kind} {i : Nat} (hi : i < added k) (r : Ref) :
    ¬(Renaming.past h added).rel k r (h.count k + i) :=
  ne_skip hi _ r

end Heap

/-- Containers that a search met are paired with their copies, and new ones with new ones. -/
def Renaming.toCopies (h h' : Heap) (m : Heap.Reached) (hm : m.Indexed)
    (hlive : ∀ k r, (m.place k r).isSome → r < h.count k)
    (hcount : ∀ k, h.count k + (m.order k).size ≤ h'.count k) : Renaming where
  rel k r s := (∃ i, m.place k r = some i ∧ s = h.count k + i) ∨
    ∃ i, r = h.count k + i ∧ s = h'.count k + i
  one_to_one := by
    intro k (r : Nat) (s : Nat) (r' : Nat) (s' : Nat) hrs hrs'
    change r = r' ↔ s = s'
    have hmet {r i : Nat} (hr : m.place k r = some i) :
        r < h.count k ∧ h.count k + i < h'.count k := by
      have hbound := hcount k
      have hi := hm.lt_size hr
      exact ⟨hlive k r (Option.isSome_iff_exists.mpr ⟨i, hr⟩), by omega⟩
    rcases hrs with ⟨i, hr, rfl⟩ | ⟨i, rfl, rfl⟩ <;> rcases hrs' with ⟨j, hr', rfl⟩ | ⟨j, rfl, rfl⟩
    · rw [Nat.add_left_cancel_iff]
      constructor
      · rintro rfl
        exact Option.some_inj.mp (hr.symm.trans hr')
      · rintro rfl
        exact Option.some_inj.mp (((hm k r i).mp hr).symm.trans ((hm k r' i).mp hr'))
    · have := hmet hr
      omega
    · have := hmet hr'
      omega
    · omega

theorem Reply.Rel.of_map {R : Block → Block → Prop} {σ : Renaming} {r s : Ref}
    (h : Reply.Rel R σ (.fetched (some (.map r))) (.fetched (some (.map s)))) : σ.rel .map r s := by
  cases h with
  | fetched h =>
    cases h with
    | some h =>
      cases h with
      | scalar h => cases h
      | map h => exact h

namespace Session

variable {s : Session}

/-- The number of containers of a kind that a snapshot copies. -/
noncomputable def copied (s : Session) (k : Kind) : Nat :=
  ((s.machine.heap.reachable s.machine.roots).order k).size

/-- The session after a snapshot was taken. -/
def snapped (s : Session) : Session :=
  { s with machine := s.machine.snapshot.2 }

/-- A session with a machine that was put back, whose host has yet to get anything from it. -/
def restored (s : Session) (snap : Snapshot) : Session :=
  ⟨s.machine.restore snap, []⟩

/-- The session of a host that has yet to get anything from the machine. -/
def fresh (s : Session) : Session :=
  { s with held := [] }

theorem snapped_extends (s : Session) :
    s.machine.heap.Extends s.copied s.snapped.machine.heap := by
  rw [snapped, Machine.snapshot_eq]
  exact s.machine.heap.addCopies_extends _

theorem Sound.alike_snapped (hs : s.Sound) :
    s.Alike ⟨.exact, .past s.machine.heap s.copied, s.snapped.machine.heap, True⟩ s.snapped := by
  have hle : (Renaming.identity.below s.machine.heap).Le
      ((Renaming.past s.machine.heap s.copied).below s.machine.heap) := Heap.identity_le_past
  exact ⟨⟨rfl, ⟨Links.rel_self _ _ rfl, fun _ => rfl, fun _ => rfl, hs.machine.scope.mono hle,
    hs.machine.data.mono hle, hs.closed.twins_past s.snapped_extends⟩, hs.machine.uniform⟩,
    hs.held.imp fun _ _ => .mono hle⟩

theorem Sound.spares_serveAll (hs : s.Sound) (between : List (HostOp × Clock)) :
    Heap.Spares (.past s.machine.heap s.copied) s.snapped.machine.heap
      (s.snapped.serveAll between).2.machine.heap := by
  have hops : List.Forall₂ (fun o o' : HostOp × Clock => o.1 = o'.1 ∧ (True → o.2 = o'.2))
      between between := List.forall₂_same.mpr fun _ _ => ⟨rfl, fun _ => rfl⟩
  exact (hs.alike_snapped.serveAll hops fun _ => trivial).2.1.machine.heap.spares

section Restoring

variable {s' : Session} (hs : s.Sound)
  (hgrows : s.snapped.machine.heap.Grows s'.machine.heap)
include hs

section Copies

include hgrows

/-- The renaming from the machine of a snapshot to one that is put back later. -/
noncomputable def Sound.renaming : Renaming :=
  .toCopies s.machine.heap s'.machine.heap (s.machine.heap.reachable s.machine.roots)
    (s.machine.heap.indexed_reachable s.machine.roots)
    (fun _ _ => hs.closed.live_reachable hs.live_roots)
    (fun k => s.snapped_extends.count k ▸ hgrows k)

theorem Sound.rel_moved {v : Value}
    (hmet : (s.machine.heap.reachable s.machine.roots).Has v) :
    Value.Rel ((hs.renaming hgrows).below s.machine.heap) v
      (s.machine.heap.moved (s.machine.heap.reachable s.machine.roots) v) := by
  cases hv : v.ref? with
  | none =>
    rw [Heap.moved_scalar hv]
    exact .scalar (Value.isContainer_of_ref? hv)
  | some c =>
    obtain ⟨k, r⟩ := c
    obtain ⟨i, hi⟩ := Option.isSome_iff_exists.mp (hmet k r hv)
    have hlive := hs.closed.live_reachable hs.live_roots (hmet k r hv)
    have hrel : ((hs.renaming hgrows).below s.machine.heap).rel k r (s.machine.heap.count k + i) :=
      ⟨.inl ⟨i, hi, rfl⟩, hlive⟩
    rw [Heap.moved_met hv hi, Value.eq_of_ref? hv]
    cases k with
    | array => exact .array hrel
    | map => exact .map hrel

theorem Sound.rel_moved_root {v : Value} (hv : v ∈ s.machine.roots) :
    Value.Rel ((hs.renaming hgrows).below s.machine.heap) v
      (s.machine.heap.moved (s.machine.heap.reachable s.machine.roots) v) :=
  hs.rel_moved hgrows (Heap.has_reachable hv)

theorem Sound.rel_moved_content {k : Kind} {r : Ref} {i : Nat} {v : Value}
    (hr : (s.machine.heap.reachable s.machine.roots).place k r = some i)
    (hv : v ∈ s.machine.heap.contents (k.value r)) :
    Value.Rel ((hs.renaming hgrows).below s.machine.heap) v
      (s.machine.heap.moved (s.machine.heap.reachable s.machine.roots) v) :=
  hs.rel_moved hgrows (Heap.has_contents (Option.isSome_iff_exists.mpr ⟨i, hr⟩) hv)

theorem Sound.rel_vars : Table.Rel (Value.Rel ((hs.renaming hgrows).below s.machine.heap))
    s.machine.scope.vars s.machine.snapshot.1.scope.vars := by
  rw [Machine.snapshot_eq]
  exact Table.rel_map fun _ he =>
    hs.rel_moved_root hgrows (List.mem_append_left _ (List.mem_map_of_mem he))

theorem Sound.rel_data : DataQueue.Rel ((hs.renaming hgrows).below s.machine.heap)
    s.machine.data s.machine.snapshot.1.data := by
  rw [Machine.snapshot_eq]
  refine ⟨?_, rfl⟩
  change List.Forall₂ _ s.machine.data.values.toList (s.machine.data.values.map _).toList
  rw [Array.toList_map, List.forall₂_map_right_iff, List.forall₂_same]
  exact fun v hv => hs.rel_moved_root hgrows (List.mem_append_right _ hv)

/-- A pair that counts is a container that was met and its copy. -/
theorem Sound.copy_of_renaming {k : Kind} {r t : Ref}
    (hr : ((hs.renaming hgrows).below s.machine.heap).rel k r t) :
    ∃ i, (s.machine.heap.reachable s.machine.roots).place k r = some i ∧ i < s.copied k ∧
      t = s.machine.heap.count k + i := by
  rcases hr with ⟨⟨i, hi, rfl⟩ | ⟨i, rfl, -⟩, hlt⟩
  · exact ⟨i, hi, (s.machine.heap.indexed_reachable s.machine.roots).lt_size hi, rfl⟩
  · exact absurd hlt (Nat.not_lt.mpr (Nat.le_add_right _ _))

theorem Sound.live_snapped {k : Kind} {r t : Ref}
    (hr : ((hs.renaming hgrows).below s.machine.heap).rel k r t) :
    t < s.snapped.machine.heap.count k := by
  obtain ⟨i, -, hlt, rfl⟩ := hs.copy_of_renaming hgrows hr
  rw [s.snapped_extends.count k]
  exact Nat.add_lt_add_left hlt _

theorem Sound.grid_snapped {r t : Ref}
    (hr : ((hs.renaming hgrows).below s.machine.heap).rel .array r t) :
    Grid.Rel ((hs.renaming hgrows).below s.machine.heap) (s.machine.heap.grid r)
      (s.snapped.machine.heap.grid t) := by
  have hindexed := s.machine.heap.indexed_reachable s.machine.roots
  obtain ⟨i, hi, -, rfl⟩ := hs.copy_of_renaming hgrows hr
  rw [snapped, Machine.snapshot_eq, Heap.grid_addCopies ((hindexed .array r i).mp hi)]
  refine ⟨rfl, ?_⟩
  rw [Grid.cells_mapCells, Array.toList_map, List.forall₂_map_right_iff, List.forall₂_same]
  exact fun v hv => hs.rel_moved_content hgrows hi hv

theorem Sound.dict_snapped {r t : Ref}
    (hr : ((hs.renaming hgrows).below s.machine.heap).rel .map r t) :
    Dict.Rel ((hs.renaming hgrows).below s.machine.heap) (s.machine.heap.dict r)
      (s.snapped.machine.heap.dict t) := by
  have hindexed := s.machine.heap.indexed_reachable s.machine.roots
  obtain ⟨i, hi, -, rfl⟩ := hs.copy_of_renaming hgrows hr
  rw [snapped, Machine.snapshot_eq, Heap.dict_addCopies ((hindexed .map r i).mp hi)]
  intro key
  rw [((s.machine.heap.dict r).mapValues_equiv _).getElem?_eq]
  exact Table.rel_map (fun _ he => hs.rel_moved_content hgrows hi (List.mem_map_of_mem he)) key

end Copies

variable
  (hspares : Heap.Spares (.past s.machine.heap s.copied) s.snapped.machine.heap s'.machine.heap)
include hspares

/-- The copies still hold what the containers of the snapshot held. -/
theorem Sound.twins_copies :
    Heap.Twins (hs.renaming hspares.grows) s'.machine.heap s.machine.heap s'.machine.heap where
  rel := by
    have hgrows := hspares.grows
    refine ⟨fun {k r t} hr => ⟨hr.2, ?_⟩, fun {r t} hr => ?_, fun {r t} hr => ?_⟩
    · exact Nat.lt_of_lt_of_le (hs.live_snapped hgrows hr) (hgrows k)
    · obtain ⟨i, -, hlt, rfl⟩ := hs.copy_of_renaming hgrows hr
      rw [hspares.grid _ (Heap.not_past hlt)]
      exact hs.grid_snapped hgrows hr
    · obtain ⟨i, -, hlt, rfl⟩ := hs.copy_of_renaming hgrows hr
      rw [hspares.dict _ (Heap.not_past hlt)]
      exact hs.dict_snapped hgrows hr
  fresh _ i := .inr ⟨i, rfl, rfl⟩
  spares := ⟨.refl _, fun _ _ => rfl, fun _ _ => rfl⟩

/-- The machine of a snapshot and the one that is put back are the same up to renaming. -/
theorem Sound.alike_restored (hfixtures : s'.machine.fixtures = s.machine.fixtures)
    (hnames : s'.machine.literalNames = s.machine.literalNames)
    (hpending : s.machine.pending = [])
    (hconstants : ∀ (name : String) v, s.machine.scope.constants[name]? = some v →
      v.isContainer = false) :
    Session.Alike ⟨.exact, hs.renaming hspares.grows, s'.machine.heap, False⟩ s.fresh
      (s'.restored s.machine.snapshot.1) := by
  have hconfig : s'.machine.config = s.machine.config := congrArg (·.1) hfixtures
  have hcommands : s'.machine.commands = s.machine.commands := congrArg (·.2.1) hfixtures
  have hfunctions : s'.machine.functions = s.machine.functions := congrArg (·.2.2) hfixtures
  refine ⟨⟨?_, ⟨?_, nofun, nofun, ⟨hs.rel_vars hspares.grows, ?_⟩, hs.rel_data hspares.grows,
    hs.twins_copies hspares⟩, hs.machine.uniform⟩, .nil⟩
  · simp only [Machine.withStock, Machine.stock, restored, fresh, Machine.restore, Machine.idle,
      hconfig, hcommands, hfunctions, hpending, hnames, Machine.snapshot_eq]
  · rw [Machine.snapshot_eq]
    exact Links.rel_self _ _ rfl
  · exact Table.rel_self fun e he => .scalar
      (hconstants e.1 e.2 (Std.TreeMap.mem_toList_iff_getElem?_eq_some.mp he))

end Restoring

/-- A session whose host has made a map and stored it as `a`. -/
def mapHolder : Session :=
  (Session.serve ⟨Machine.new {} (.ofSeed 7), []⟩ {} (.store "a" .map)).2

theorem reachable_mapHolder (ext : Extensions) : Reachable ext mapHolder [] :=
  .serve (.new _ _) _ _

theorem scalar_constants_mapHolder (name : String) (v : Value)
    (h : mapHolder.machine.scope.constants[name]? = some v) : v.isContainer = false := by
  change Scope.standard.constants[name]? = some v at h
  simp only [Scope.standard, Scope.define, Std.TreeMap.getElem?_insert,
    Std.TreeMap.getElem?_emptyc] at h
  split at h
  · cases h
    rfl
  · split at h
    · cases h
      rfl
    · cases h

/-- A machine that was put back answers like the machine of the snapshot, up to one renaming of
containers, whatever happened in the meantime. The containers hold the same up to this renaming.
This is about a host that uses what it gets from the machine from then on, and whose commands print
and store variables only. -/
theorem snapshot_faithful {kept : List Snapshot} (hs : Reachable .uniform s kept)
    (hpending : s.machine.pending = [])
    (hconstants : ∀ (name : String) v, s.machine.scope.constants[name]? = some v →
      v.isContainer = false) (between : List (HostOp × Clock)) :
    ∃ ρ : Renaming, ∀ later later' : List (HostOp × Clock),
      List.Forall₂ (fun o o' => o.1 = o'.1) later later' → s.fresh.anyTimed later = false →
        let first := s.fresh.serveAll later
        let again := ((s.snapped.serveAll between).2.restored s.machine.snapshot.1).serveAll later'
        List.Forall₂ (Reply.Rel Eq (ρ.below first.2.machine.heap)) first.1 again.1 ∧
          Heap.Rel (ρ.below first.2.machine.heap) first.2.machine.heap again.2.machine.heap := by
  have hsound := hs.sound.1
  have hspares := hsound.spares_serveAll between
  have hfixtures : (s.snapped.serveAll between).2.machine.fixtures = s.machine.fixtures :=
    s.snapped.serveAll_fixtures between
  have hnames : (s.snapped.serveAll between).2.machine.literalNames = s.machine.literalNames :=
    (serveAll_keeps (s := s.snapped) (Machine.kept_names _) hs.names between).trans hs.names.symm
  have halike := hsound.alike_restored hspares hfixtures hnames hpending hconstants
  refine ⟨hsound.renaming hspares.grows, fun later later' hops htimed => ?_⟩
  obtain ⟨hreplies, hdone, -⟩ := halike.serveAll (hops.imp fun _ _ h => ⟨h, nofun⟩)
    fun h => absurd (htimed.symm.trans h) nofun
  exact ⟨hreplies, hdone.machine.heap.rel⟩

/-- A machine that was put back, while the host wrote to the map and took it away. -/
theorem snapshot_faithful_mapHolder :
    let between : List (HostOp × Clock) :=
      [(.enter "a(1) = 5 : a = 0", {}), (.execute, {}), (.execute, {})]
    let later : List (HostOp × Clock) :=
      [(.enter "a(2) = 3", {}), (.execute, {}), (.fetch "a", {})]
    mapHolder.machine.pending = [] ∧ mapHolder.fresh.anyTimed later = false ∧
      ∃ ρ : Renaming,
        let first := mapHolder.fresh.serveAll later
        let again := ((mapHolder.snapped.serveAll between).2.restored
          mapHolder.machine.snapshot.1).serveAll later
        List.Forall₂ (Reply.Rel Eq (ρ.below first.2.machine.heap)) first.1 again.1 ∧
          Heap.Rel (ρ.below first.2.machine.heap) first.2.machine.heap again.2.machine.heap := by
  intro between later
  have htimed : mapHolder.fresh.anyTimed later = false := by decide +kernel
  obtain ⟨ρ, hρ⟩ := snapshot_faithful (reachable_mapHolder _) rfl scalar_constants_mapHolder between
  exact ⟨rfl, htimed, ρ, hρ later later (List.forall₂_same.mpr fun _ _ => rfl) htimed⟩

/-- A host that kept its map from before finds that the machine which was put back has another one
in its place. -/
theorem held_container_not_restored :
    let later : List (HostOp × Clock) :=
      [(.store "b" (.held 0), {}), (.fetch "a", {}), (.fetch "b", {})]
    let again : Session := { mapHolder.snapped with
      machine := mapHolder.snapped.machine.restore mapHolder.machine.snapshot.1 }
    Reachable .uniform mapHolder [] ∧ mapHolder.machine.pending = [] ∧
      (∀ (name : String) v, mapHolder.machine.scope.constants[name]? = some v →
        v.isContainer = false) ∧
      mapHolder.anyTimed later = false ∧
      ¬∃ ρ : Renaming,
        List.Forall₂ (Reply.Rel Eq ρ) (mapHolder.serveAll later).1 (again.serveAll later).1 := by
  intro later again
  refine ⟨reachable_mapHolder _, rfl, scalar_constants_mapHolder, rfl, ?_⟩
  rintro ⟨ρ, hreplies⟩
  let stored (s : Session) : Machine := (s.serve {} (.store "b" (.held 0))).2.machine
  change List.Forall₂ (Reply.Rel Eq ρ)
    [.done, .fetched ((stored mapHolder).fetch "a"), .fetched ((stored mapHolder).fetch "b")]
    [.done, .fetched ((stored again).fetch "a"), .fetched ((stored again).fetch "b")] at hreplies
  have ha : (stored mapHolder).fetch "a" = some (.map 0) := by decide +kernel
  have hb : (stored mapHolder).fetch "b" = some (.map 0) := by decide +kernel
  have ha' : (stored again).fetch "a" = some (.map 1) := by decide +kernel
  have hb' : (stored again).fetch "b" = some (.map 0) := by decide +kernel
  rw [ha, hb, ha', hb'] at hreplies
  simp only [List.forall₂_cons] at hreplies
  obtain ⟨-, hmoved, hkept, -⟩ := hreplies
  exact absurd ((ρ.one_to_one hmoved.of_map hkept.of_map).mp rfl) (by decide)

end Session

end LineBasic
