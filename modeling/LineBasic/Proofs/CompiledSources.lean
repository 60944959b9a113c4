import LineBasic.Proofs.LoadedPrograms

/-!
# Sources that are read one after another

A machine reads one source after another, and from time to time it forgets all labels. What a label
stands for is then decided by the last source with that label since labels were forgotten, and in that
source by the label's last occurrence. The numbers of blocks only grow, whatever is forgotten. A source
that cannot be read is as good as never seen.
-/

namespace LineBasic

set_option autoImplicit false

/-- To read a source, or to forget all labels. -/
inductive Program.Request where
  | compile (source : String) (parent : Option Frame)
  | clear

open Program (Request)

/-- The last occurrence of a label among those of a program has this address. -/
def Code.LastLabel (code : Code) (name : String) (addr : Address) : Prop :=
  ∃ front back, code.labels = front ++ (name, addr) :: back ∧ ∀ label ∈ back, label.1 ≠ name

theorem Code.find_label_iff (code : Code) (name : String) (addr : Address) :
    code.labels.reverse.find? (·.1 = name) = some (name, addr) ↔ code.LastLabel name addr := by
  rw [List.find?_eq_some_iff_append]
  constructor
  · rintro ⟨-, later, earlier, hlabels, hlater⟩
    refine ⟨earlier.reverse, later.reverse, ?_, fun label hlabel => ?_⟩
    · simpa using congrArg List.reverse hlabels
    · simpa using hlater label (List.mem_reverse.mp hlabel)
  · rintro ⟨front, back, hlabels, hback⟩
    refine ⟨by simp, back.reverse, front.reverse, by simp [hlabels], fun label hlabel => ?_⟩
    simpa using hback label (List.mem_reverse.mp hlabel)

namespace Program.Request

/-- To read a source that can be read and has a label. -/
def Defines (name : String) : Request → Prop
  | compile source _ => ∃ code addr, parse source = .ok code ∧ (name, addr) ∈ code.labels
  | clear => False

/-- No source since labels were forgotten has this label. -/
def Missing (requests : List Request) (name : String) : Prop :=
  ∀ earlier request later, requests = earlier ++ request :: later → clear ∉ later →
    ¬request.Defines name

/-- A request that has nothing to do with a label. -/
def Passes (name : String) (request : Request) : Prop :=
  request ≠ clear ∧ ¬request.Defines name

end Program.Request

namespace Machine

def fulfil (m : Machine) : Request → Machine
  | .compile source parent => (m.compile source parent).2
  | .clear => { m with program := m.program.clear }

/-- The block that a request gives. -/
def block? (m : Machine) : Request → Option Block
  | .compile source parent => (m.compile source parent).1.toOption
  | .clear => none

def fulfilAll (m : Machine) (requests : List Request) : Machine :=
  requests.foldl fulfil m

/-- The blocks that are given one after another. -/
def blocks : Machine → List Request → List Block
  | _, [] => []
  | m, request :: requests => (m.block? request).toList ++ (m.fulfil request).blocks requests

variable {m : Machine} {source name : String} {parent : Option Frame} {frame : Frame}
  {request : Request} {requests : List Request}

theorem fulfilAll_concat (m : Machine) (requests : List Request) (request : Request) :
    m.fulfilAll (requests ++ [request]) = (m.fulfilAll requests).fulfil request :=
  List.foldl_concat ..

/-! ### One source -/

theorem compile_of_error {e : Error} (h : parse source = .error e) (m : Machine)
    (parent : Option Frame) : m.compile source parent = (.error e, m) := by
  unfold compile Program.compile
  rw [h]
  rfl

theorem compile_of_ok {code : Code} (h : parse source = .ok code) (m : Machine)
    (parent : Option Frame) :
    m.compile source parent =
      let block : Block := ⟨m.program.nextId, code.statements, source, parent⟩
      (.ok block, { m with
        program := { m.program with nextId := m.program.nextId + 1 }.addLabels block code.labels
        data := { m.data with values := m.data.values ++ code.data.map Constant.value } }) := by
  unfold compile Program.compile
  rw [h]
  dsimp only
  rw [← DataQueue.pushAll_eq]
  rfl

/-! ### Labels and their blocks -/

/-- The step: a request keeps the two tables in step. -/
theorem tight_fulfil (hm : m.program.Tight) (request : Request) : (m.fulfil request).program.Tight := by
  cases request with
  | clear => exact m.program.tight_clear
  | compile source parent =>
    cases hparse : parse source with
    | error e =>
      rw [fulfil, compile_of_error hparse]
      exact hm
    | ok code =>
      rw [fulfil, compile_of_ok hparse]
      exact hm.advance.addLabels (Nat.lt_succ_self _)

theorem tight_fulfilAll (hm : m.program.Tight) (requests : List Request) :
    (m.fulfilAll requests).program.Tight := by
  induction requests using List.reverseRecOn with
  | nil => exact hm
  | append_singleton requests request ih =>
    rw [fulfilAll_concat]
    exact tight_fulfil ih request

/-! ### What a label stands for -/

/-- A request that makes a label stand for a place: the last occurrence of the label in the source, in
the block that the source becomes. -/
def Places (m : Machine) (name : String) (frame : Frame) : Request → Prop
  | .compile source parent => ∃ code, parse source = .ok code ∧ code.LastLabel name frame.addr ∧
      m.block? (.compile source parent) = some frame.block
  | .clear => False

/-- What a label stands for by the last request that has to do with it. -/
def Latest (m : Machine) (requests : List Request) (name : String) (frame : Frame) : Prop :=
  ∃ earlier request later, requests = earlier ++ request :: later ∧
    (m.fulfilAll earlier).Places name frame request ∧ ∀ r ∈ later, r.Passes name

theorem label_of_ok {code : Code} (h : parse source = .ok code) (hm : m.program.Tight)
    (parent : Option Frame) (name : String) :
    (m.fulfil (.compile source parent)).program.label? name =
      ((code.labels.reverse.find? (·.1 = name)).map
        fun l => ⟨⟨m.program.nextId, code.statements, source, parent⟩, l.2⟩).or
          (m.program.label? name) := by
  rw [fulfil, compile_of_ok h]
  exact hm.advance.label?_addLabels hm.fresh name

theorem block_of_ok {code : Code} (h : parse source = .ok code) (m : Machine)
    (parent : Option Frame) : m.block? (.compile source parent) =
      some ⟨m.program.nextId, code.statements, source, parent⟩ := by
  rw [block?, compile_of_ok h]
  rfl

theorem Places.defines (h : m.Places name frame request) : request.Defines name := by
  cases request with
  | clear => exact h
  | compile source parent =>
    obtain ⟨code, hcode, ⟨front, back, hlabels, -⟩, -⟩ := h
    exact ⟨code, frame.addr, hcode, by simp [hlabels]⟩

/-- The step: a request forgets a label, passes it by or gives it a place. -/
theorem label_cases (hm : m.program.Tight) (request : Request) (name : String) :
    (request = .clear ∧ (m.fulfil request).program.label? name = none) ∨
    (request.Passes name ∧ (m.fulfil request).program.label? name = m.program.label? name) ∨
    request.Defines name ∧ ∃ frame, (m.fulfil request).program.label? name = some frame ∧
      ∀ frame', m.Places name frame' request ↔ frame' = frame := by
  cases request with
  | clear => exact .inl ⟨rfl, m.program.label?_clear name⟩
  | compile source parent =>
    cases hparse : parse source with
    | error e =>
      refine .inr (.inl ⟨⟨nofun, ?_⟩, by rw [fulfil, compile_of_error hparse]⟩)
      rintro ⟨code, addr, hcode, -⟩
      cases hparse.symm.trans hcode
    | ok code =>
      have hlabel := label_of_ok hparse hm parent name
      cases hfind : code.labels.reverse.find? (·.1 = name) with
      | none =>
        rw [hfind] at hlabel
        refine .inr (.inl ⟨⟨nofun, ?_⟩, hlabel⟩)
        rintro ⟨code', addr, hcode, hmem⟩
        cases hparse.symm.trans hcode
        have hne := List.find?_eq_none.mp hfind _ (List.mem_reverse.mpr hmem)
        exact hne (decide_eq_true rfl)
      | some l =>
        obtain ⟨name', addr⟩ := l
        obtain rfl : name' = name := by simpa using List.find?_some hfind
        rw [hfind] at hlabel
        have hmem := List.mem_reverse.mp (List.mem_of_find?_eq_some hfind)
        refine .inr (.inr ⟨⟨code, addr, hparse, hmem⟩, _, hlabel, fun frame' => ?_⟩)
        constructor
        · rintro ⟨code', hcode, hlast, hblock⟩
          cases hparse.symm.trans hcode
          have hfind' := hfind.symm.trans ((code.find_label_iff _ _).mpr hlast)
          have hblock' := (block_of_ok hparse m parent).symm.trans hblock
          obtain ⟨block, addr'⟩ := frame'
          cases hblock'
          cases hfind'
          rfl
        · rintro rfl
          exact ⟨code, hparse, (code.find_label_iff _ _).mp hfind, block_of_ok hparse m parent⟩

theorem concat_eq_split {earlier later : List Request} {r : Request}
    (h : requests ++ [request] = earlier ++ r :: later) :
    (later = [] ∧ earlier = requests ∧ r = request) ∨
      ∃ between, later = between ++ [request] ∧ requests = earlier ++ r :: between := by
  rcases List.eq_nil_or_concat' later with rfl | ⟨between, last, rfl⟩
  · obtain ⟨hearlier, hlast⟩ := List.append_inj' h rfl
    cases hlast
    exact .inl ⟨rfl, hearlier.symm, rfl⟩
  · rw [← List.cons_append, ← List.append_assoc] at h
    obtain ⟨hrequests, hlast⟩ := List.append_inj' h rfl
    cases hlast
    exact .inr ⟨between, rfl, hrequests⟩

theorem latest_concat : m.Latest (requests ++ [request]) name frame ↔
    (m.fulfilAll requests).Places name frame request ∨
      request.Passes name ∧ m.Latest requests name frame := by
  constructor
  · rintro ⟨earlier, r, later, hsplit, hplaces, hpasses⟩
    rcases concat_eq_split hsplit with ⟨rfl, rfl, rfl⟩ | ⟨between, rfl, rfl⟩
    · exact .inl hplaces
    · refine .inr ⟨hpasses request (by simp), earlier, r, between, rfl, hplaces, fun r' hr' => ?_⟩
      exact hpasses r' (List.mem_append_left _ hr')
  · rintro (hplaces | ⟨hpasses, earlier, r, later, rfl, hplaces, hlater⟩)
    · exact ⟨requests, request, [], rfl, hplaces, nofun⟩
    · refine ⟨earlier, r, later ++ [request], by simp, hplaces, fun r' hr' => ?_⟩
      rcases List.mem_append.mp hr' with hr' | hr'
      · exact hlater r' hr'
      · exact List.mem_singleton.mp hr' ▸ hpasses

/-- After any requests, a label stands for what the latest of them says. -/
theorem label_fulfilAll (hm : m.program.Tight) (hnew : ∀ name, m.program.label? name = none)
    (requests : List Request) (name : String) (frame : Frame) :
    (m.fulfilAll requests).program.label? name = some frame ↔ m.Latest requests name frame := by
  induction requests using List.reverseRecOn with
  | nil =>
    rw [fulfilAll, List.foldl_nil, hnew]
    refine ⟨nofun, ?_⟩
    rintro ⟨earlier, r, later, hsplit, -⟩
    simp at hsplit
  | append_singleton requests request ih =>
    rw [latest_concat, fulfilAll_concat, ← ih]
    rcases label_cases (tight_fulfilAll hm requests) request name with
      ⟨rfl, hlabel⟩ | ⟨hpasses, hlabel⟩ | ⟨hdefines, frame', hlabel, hplaces⟩
    · rw [hlabel]
      refine ⟨nofun, ?_⟩
      rintro (hplaces | ⟨hpasses, -⟩)
      · exact hplaces.elim
      · exact absurd rfl hpasses.1
    · rw [hlabel]
      refine ⟨fun h => .inr ⟨hpasses, h⟩, ?_⟩
      rintro (hplaces | ⟨-, h⟩)
      · exact absurd hplaces.defines hpasses.2
      · exact h
    · rw [hlabel, hplaces]
      refine ⟨fun h => .inl (Option.some.inj h).symm, ?_⟩
      rintro (rfl | ⟨hpasses, -⟩)
      · rfl
      · exact absurd hdefines hpasses.2

theorem missing_concat : Request.Missing (requests ++ [request]) name ↔
    request = .clear ∨ request.Passes name ∧ Request.Missing requests name := by
  constructor
  · intro hmissing
    by_cases hclear : request = .clear
    · exact .inl hclear
    · refine .inr ⟨⟨hclear, hmissing requests request [] rfl List.not_mem_nil⟩, ?_⟩
      rintro earlier r later rfl hlater
      refine hmissing earlier r (later ++ [request]) (by simp) fun hmem => ?_
      rcases List.mem_append.mp hmem with hmem | hmem
      · exact hlater hmem
      · exact hclear (List.mem_singleton.mp hmem).symm
  · rintro (rfl | ⟨hpasses, hmissing⟩) earlier r later hsplit hlater
    all_goals
      rcases concat_eq_split hsplit with ⟨rfl, rfl, rfl⟩ | ⟨between, rfl, rfl⟩
    · exact id
    · exact absurd (List.mem_append_right _ (List.mem_singleton_self _)) hlater
    · exact hpasses.2
    · exact hmissing earlier r between rfl fun hmem => hlater (List.mem_append_left _ hmem)

theorem label_fulfilAll_none (hm : m.program.Tight) (hnew : ∀ name, m.program.label? name = none)
    (requests : List Request) (name : String) :
    (m.fulfilAll requests).program.label? name = none ↔ Request.Missing requests name := by
  induction requests using List.reverseRecOn with
  | nil =>
    refine ⟨fun _ earlier r later hsplit => ?_, fun _ => hnew name⟩
    simp at hsplit
  | append_singleton requests request ih =>
    rw [missing_concat, fulfilAll_concat, ← ih]
    rcases label_cases (tight_fulfilAll hm requests) request name with
      ⟨rfl, hlabel⟩ | ⟨hpasses, hlabel⟩ | ⟨hdefines, frame, hlabel, -⟩
    · exact iff_of_true hlabel (.inl rfl)
    · rw [hlabel]
      refine ⟨fun h => .inr ⟨hpasses, h⟩, ?_⟩
      rintro (rfl | ⟨-, h⟩)
      · exact absurd rfl hpasses.1
      · exact h
    · rw [hlabel]
      refine ⟨nofun, ?_⟩
      rintro (rfl | ⟨hpasses, -⟩)
      · exact hdefines.elim
      · exact absurd hdefines hpasses.2

/-! ### Numbers of blocks -/

/-- The step: the number of a block is the next one, and the numbers go on behind it. -/
theorem id_cases (m : Machine) (request : Request) :
    (m.block? request = none ∧ (m.fulfil request).program.nextId = m.program.nextId) ∨
    ∃ block, m.block? request = some block ∧ block.id = m.program.nextId ∧
      (m.fulfil request).program.nextId = m.program.nextId + 1 := by
  cases request with
  | clear => exact .inl ⟨rfl, rfl⟩
  | compile source parent =>
    cases hparse : parse source with
    | error e =>
      rw [block?, fulfil, compile_of_error hparse]
      exact .inl ⟨rfl, rfl⟩
    | ok code =>
      refine .inr ⟨_, block_of_ok hparse m parent, rfl, ?_⟩
      rw [fulfil, compile_of_ok hparse]
      exact Program.nextId_addLabels ..

theorem blocks_numbered (m : Machine) (requests : List Request) :
    (m.blocks requests).Pairwise (·.id < ·.id) ∧
      ∀ block ∈ m.blocks requests, m.program.nextId ≤ block.id := by
  induction requests generalizing m with
  | nil => exact ⟨.nil, nofun⟩
  | cons request requests ih =>
    obtain ⟨hsorted, hfrom⟩ := ih (m.fulfil request)
    rw [blocks]
    rcases id_cases m request with ⟨hnone, hnext⟩ | ⟨block, hblock, hid, hnext⟩
    · rw [hnext] at hfrom
      rw [hnone]
      exact ⟨hsorted, hfrom⟩
    · rw [hblock]
      rw [hnext] at hfrom
      refine ⟨List.pairwise_cons.mpr ⟨fun block' hblock' => ?_, hsorted⟩, ?_⟩
      · rw [hid]
        exact hfrom block' hblock'
      · intro block' hblock'
        rcases List.mem_cons.mp hblock' with rfl | hblock'
        · exact hid.ge
        · exact (Nat.le_succ _).trans (hfrom block' hblock')

/-- Reading sources one after another. A label stands for its last occurrence in the last source that
has it, since labels were forgotten, and for nothing if there is none. The block that a label names is
always held, under its number. No number of a block is given twice. A source that cannot be read changes
nothing, and the literals of one that can be read join the queue behind all others. -/
theorem compiled_sources (config : Config) (random : Random) (requests : List Request) :
    let m := Machine.new config random
    (∀ name frame, (m.fulfilAll requests).program.label? name = some frame ↔
      m.Latest requests name frame) ∧
    (∀ name, (m.fulfilAll requests).program.label? name = none ↔ Request.Missing requests name) ∧
    (∀ (name : String) (id : Nat) (addr : Address),
      (m.fulfilAll requests).program.labels[name]? = some (id, addr) →
      ∃ block, (m.fulfilAll requests).program.blocks[id]? = some block ∧ block.id = id ∧
        (m.fulfilAll requests).program.label? name = some ⟨block, addr⟩) ∧
    (m.blocks requests).Pairwise (·.id < ·.id) ∧
    ∀ (m : Machine) (source : String) (parent : Option Frame),
      (∀ e, parse source = .error e → m.compile source parent = (.error e, m)) ∧
      ∀ code, parse source = .ok code → ∃ block program,
        m.compile source parent = (.ok block, { m with
          program := program
          data := { m.data with values := m.data.values ++ code.data.map Constant.value } }) := by
  intro m
  have hm : m.program.Tight := Program.tight_of_empty
  have hnew : ∀ name, m.program.label? name = none := Program.label?_empty
  refine ⟨label_fulfilAll hm hnew requests, label_fulfilAll_none hm hnew requests,
    fun name id addr => (tight_fulfilAll hm requests).label?_of_named, (m.blocks_numbered requests).1,
    fun m source parent => ⟨fun e he => ?_, fun code hcode => ?_⟩⟩
  · exact compile_of_error he m parent
  · exact ⟨_, _, compile_of_ok hcode m parent⟩

end Machine

end LineBasic
