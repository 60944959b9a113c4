import LineBasic.Proofs.Brackets
import LineBasic.Proofs.Handling
import LineBasic.Proofs.LabelTables
import LineBasic.Proofs.SoundReading

/-!
# Places in programs that were read

Every place that a machine knows is a place in a program that was read: where it stands, where calls
return to, where an interrupted program goes on, and where labels lead. A turn keeps that, since what
a statement jumps to comes from the machine or from the program itself, and since the tables of
labels and of blocks are kept in step.
-/

namespace LineBasic

set_option autoImplicit false

/-- A place inside of a program that was read from its source or right behind its end. The places that
the program was entered from are of that kind as well. -/
inductive Frame.Proper : Frame → Prop where
  | intro {id : Nat} {source : String} {parent : Option Frame} {addr : Address} {code : Code}
    (hparse : parse source = .ok code) (hle : addr ≤ code.statements.size)
    (hparent : ∀ frame, parent = some frame → Proper frame) :
    Proper ⟨⟨id, code.statements, source, parent⟩, addr⟩

namespace Frame.Proper

variable {block : Block} {a : Address} (h : Frame.Proper ⟨block, a⟩)
include h

theorem move {b : Address} (hle : b ≤ block.statements.size) : Frame.Proper ⟨block, b⟩ := by
  cases h with
  | intro hparse _ hparent => exact .intro hparse hle hparent

theorem parent {frame : Frame} (hframe : block.parent = some frame) : frame.Proper := by
  cases h with
  | intro _ _ hparent => exact hparent frame hframe

theorem sound {s : Stmt Address} (hs : s ∈ block.statements) : s.Sound := by
  cases h with
  | intro hparse => exact sound_of_parse hparse s hs

theorem addresses_le {s : Stmt Address} (hs : s ∈ block.statements) :
    ∀ mark ∈ s.marks, ∀ b ∈ mark.addresses, b ≤ block.statements.size := by
  cases h with
  | intro hparse =>
    intro mark hmark
    obtain ⟨p, hp, rfl⟩ := mem_marksFrom_of_mem (Array.mem_toList_iff.mpr hs) hmark 0
    exact addresses_le_of_parse hparse p hp

end Frame.Proper

/-! ### Tables of labels -/

namespace Program

/-- Tables in step whose labels lead to proper places. -/
structure Proper (p : Program) : Prop where
  tight : p.Tight
  labels : ∀ name frame, p.label? name = some frame → frame.Proper

theorem proper_of_empty {nextId : Nat} : Proper { nextId := nextId } where
  tight := tight_of_empty
  labels name frame hframe := by
    rw [label?_empty] at hframe
    cases hframe

theorem proper_clear (p : Program) : p.clear.Proper :=
  proper_of_empty

/-- Reading a source begins a block at a proper place. -/
theorem proper_of_compile {p program : Program} {data data' : DataQueue} {source : String}
    {parent : Option Frame} {block : Block}
    (hparent : ∀ frame, parent = some frame → frame.Proper)
    (hcompile : p.compile data source parent = .ok (block, program, data')) :
    Frame.Proper ⟨block, 0⟩ := by
  unfold Program.compile at hcompile
  cases hparse : parse source with
  | error e =>
    rw [hparse] at hcompile
    cases hcompile
  | ok code =>
    rw [hparse] at hcompile
    cases hcompile
    exact .intro hparse (Nat.zero_le _) hparent

/-- The labels of a source that is read are entered with proper places. -/
theorem Proper.compile {p program : Program} (h : p.Proper) {data data' : DataQueue}
    {source : String} {parent : Option Frame} {block : Block}
    (hparent : ∀ frame, parent = some frame → frame.Proper)
    (hcompile : p.compile data source parent = .ok (block, program, data')) : program.Proper := by
  unfold Program.compile at hcompile
  cases hparse : parse source with
  | error e =>
    rw [hparse] at hcompile
    cases hcompile
  | ok code =>
    rw [hparse] at hcompile
    cases hcompile
    have htight := h.tight.advance
    refine ⟨htight.addLabels (Nat.lt_succ_self _), fun name frame hframe => ?_⟩
    rw [htight.label?_addLabels h.tight.fresh] at hframe
    cases hfind : code.labels.reverse.find? (·.1 = name) with
    | some l =>
      rw [hfind] at hframe
      cases hframe
      have hmem := List.mem_reverse.mp (List.mem_of_find?_eq_some hfind)
      exact .intro hparse (labels_le_of_parse hparse l hmem) hparent
    | none =>
      rw [hfind] at hframe
      exact h.labels name frame hframe

end Program

/-! ### Footings -/

theorem BoundedStack.forall_clear {α : Type} {P : α → Prop} (stack : BoundedStack α) :
    ∀ a ∈ stack.clear.items, P a :=
  fun _ ha => absurd ha (Array.not_mem_empty _)

/-- A loop sends a program to no address but those that its marks have. -/
theorem Stmt.exists_mark_of_goal {commands : Std.TreeMap String Command} {s : Stmt Address}
    {goals : List Address} (h : .loop goals ∈ s.deeds commands) {addr : Address}
    (haddr : addr ∈ goals) : ∃ mark ∈ s.marks, addr ∈ mark.addresses := by
  induction s with
  | command pos name args literal =>
    cases hcommand : commands[name]? with
    | none => simp [deeds, hcommand] at h
    | some c => simp [deeds, hcommand] at h
  | when pos condition taken ih =>
    rw [deeds, List.mem_cons] at h
    rcases h with h | h
    · cases h
    · exact ih h
  | choose pos condition taken otherwise ih₁ ih₂ =>
    rw [deeds, List.mem_append] at h
    rcases h with h | h
    · obtain ⟨mark, hmark, hin⟩ := ih₁ h
      exact ⟨mark, List.mem_append_left _ hmark, hin⟩
    · obtain ⟨mark, hmark, hin⟩ := ih₂ h
      exact ⟨mark, List.mem_append_right _ hmark, hin⟩
  | next pos header =>
    cases List.mem_singleton.mp h
    exact ⟨.next header, List.mem_cons_self, List.mem_cons.mpr (.inl (List.mem_singleton.mp haddr))⟩
  | «do» pos g header =>
    cases List.mem_singleton.mp h
    exact ⟨.do header, List.mem_cons_self, List.mem_cons_of_mem _ haddr⟩
  | loop pos g header =>
    cases List.mem_singleton.mp h
    exact ⟨.loop header, List.mem_cons_self, List.mem_cons.mpr (.inl (List.mem_singleton.mp haddr))⟩
  | leave pos exit =>
    cases List.mem_singleton.mp h
    exact ⟨.leave exit, List.mem_cons_self, haddr⟩
  | _ => cases List.mem_singleton.mp h

namespace Footing

/-- Every place that is known is proper. -/
structure Proper (f : Footing) : Prop where
  here : ∀ block, f.code = some block → Frame.Proper ⟨block, f.pc⟩
  returns : ∀ frame ∈ f.returns.items, frame.Proper
  resume : ∀ frame status, f.resume = some (frame, status) → frame.Proper
  program : f.program.Proper

namespace Proper

variable {f : Footing} (h : f.Proper)
include h

theorem goTo {frame : Frame} (hframe : frame.Proper) : (f.goTo frame).Proper where
  here block hblock := by
    cases frame
    cases hblock
    exact hframe
  returns := h.returns
  resume := h.resume
  program := h.program

theorem move {addr : Address}
    (haddr : ∀ block, f.code = some block → addr ≤ block.statements.size) :
    Proper { f with pc := addr } where
  here block hblock := (h.here block hblock).move (haddr block hblock)
  returns := h.returns
  resume := h.resume
  program := h.program

theorem leave {returns : BoundedStack Frame} (hreturns : ∀ frame ∈ returns.items, frame.Proper)
    {resume : Option (Frame × Status)}
    (hresume : ∀ frame status, resume = some (frame, status) → frame.Proper) :
    Proper { f with code := none, returns := returns, resume := resume } where
  here _ hblock := nomatch hblock
  returns := hreturns
  resume := hresume
  program := h.program

theorem ended : f.ended.Proper where
  here _ hblock := nomatch hblock
  returns := f.returns.forall_clear
  resume _ _ hresume := nomatch hresume
  program := h.program

theorem fallenOff {block : Block} (hcode : f.code = some block) : (f.fallenOff block).Proper := by
  have hresume (frame : Frame) (status : Status)
      (hframe : (f.fallenOff block).resume = some (frame, status)) : frame.Proper := by
    unfold Footing.fallenOff at hframe
    dsimp only at hframe
    split at hframe
    · rename_i parent _ hparent
      cases hframe
      exact (h.here block hcode).parent hparent
    · exact h.resume frame status hframe
  have hleft := h.leave h.returns hresume
  exact ⟨hleft.here, hleft.returns, hleft.resume, hleft.program⟩

theorem failed : f.failed.Proper := by
  have hreturns : ∀ frame ∈ f.failed.returns.items, frame.Proper := by
    unfold Footing.failed
    dsimp only
    split
    · exact f.returns.forall_clear
    · exact h.returns
  have hleft := h.leave hreturns h.resume
  exact ⟨hleft.here, hleft.returns, hleft.resume, hleft.program⟩

theorem cleared : f.cleared.Proper where
  here := h.here
  returns := f.returns.forall_clear
  resume := nofun
  program := f.program.proper_clear

end Proper

variable {f f' : Footing}

/-- A statement whose loops stay inside of the block goes to proper places only. -/
theorem Shift.proper {d : Deed} {ok : Bool} (h : Shift d ok f f') (hf : f.Proper)
    (hgoals : ∀ goals, d = .loop goals → ∀ addr ∈ goals, ∀ block, f.code = some block →
      addr ≤ block.statements.size) : f'.Proper := by
  cases h with
  | fail | compute | pass | act => exact hf
  | goTo haddr => exact hf.move (hgoals _ rfl _ haddr)
  | jump hlabel => exact hf.goTo (hf.program.labels _ _ hlabel)
  | call hlabel hcode =>
    have hthere := hf.goTo (hf.program.labels _ _ hlabel)
    refine ⟨hthere.here, ?_, hthere.resume, hthere.program⟩
    intro frame hframe
    rcases Array.mem_push.mp hframe with hframe | rfl
    · exact hf.returns frame hframe
    · exact hf.here _ hcode
  | «return» htop =>
    have hback := hf.goTo (hf.returns _ (Array.mem_of_back? htop))
    refine ⟨hback.here, ?_, hback.resume, hback.program⟩
    intro frame hframe
    change frame ∈ f.returns.items.pop at hframe
    rw [← Array.mem_toList_iff, Array.toList_pop] at hframe
    exact hf.returns frame (Array.mem_toList_iff.mp (List.dropLast_subset _ hframe))
  | returnOut | finish => exact hf.ended
  | ask | pause => exact ⟨hf.here, hf.returns, hf.resume, hf.program⟩
  | new => exact ⟨hf.here, hf.returns, nofun, f.program.proper_clear⟩
  | resume hresume =>
    have hthere := hf.goTo (hf.resume _ _ hresume)
    exact ⟨hthere.here, hthere.returns, nofun, hthere.program⟩
  | @restart _ _ _ _ _ frame hcompile hframe =>
    have hnone : ∀ frame, (none : Option Frame) = some frame → frame.Proper := nofun
    have hprogram := f.program.proper_clear.compile hnone hcompile
    have hproper : frame.Proper := by
      rcases hframe with rfl | ⟨name, hlabel⟩
      · exact Program.proper_of_compile hnone hcompile
      · exact hprogram.labels name _ hlabel
    have hthere := hf.cleared.goTo hproper
    exact ⟨hthere.here, hthere.returns, hthere.resume, hprogram⟩
  | restartFails => exact hf.cleared

theorem Turn.proper {commands : Std.TreeMap String Command} (h : Turn commands f f')
    (hf : f.Proper) : f'.Proper := by
  have hshift {block : Block} {s : Stmt Address} {d : Deed} {ok : Bool} {f'' : Footing}
      (hcode : f.code = some block) (hs : block.statements[f.pc]? = some s)
      (hd : d ∈ s.deeds commands) (hshift : Shift d ok { f with pc := f.pc + 1 } f'') :
      f''.Proper := by
    have hlt : f.pc < block.statements.size := (Array.getElem?_eq_some_iff.mp hs).1
    refine hshift.proper (hf.move fun block' hblock => ?_)
      fun goals hgoals addr haddr block' hblock => ?_
    · cases hcode.symm.trans hblock
      exact hlt
    · cases hcode.symm.trans hblock
      obtain ⟨mark, hmark, hin⟩ := Stmt.exists_mark_of_goal (hgoals ▸ hd) haddr
      exact (hf.here block hcode).addresses_le (Array.mem_of_getElem? hs) mark hmark addr hin
  cases h with
  | idle => exact ⟨hf.here, hf.returns, hf.resume, hf.program⟩
  | fallOff hcode => exact hf.fallenOff hcode
  | run hcode hs hd h => exact hshift hcode hs hd h
  | fail hcode hs hd h => exact (hshift hcode hs hd h).failed

/-- So does a host that starts programs at proper places only. -/
theorem Handling.proper (h : Handling Frame.Proper f f') (hf : f.Proper) : f'.Proper := by
  cases h with
  | wake | answer | halt => exact ⟨hf.here, hf.returns, hf.resume, hf.program⟩
  | interrupt _ hcode =>
    refine ⟨nofun, hf.returns, fun frame status hframe => ?_, hf.program⟩
    cases hframe
    exact hf.here _ hcode
  | clear => exact hf.cleared
  | load hcompile =>
    have hnone : ∀ frame, (none : Option Frame) = some frame → frame.Proper := nofun
    exact ⟨hf.here, hf.cleared.returns, nofun, hf.cleared.program.compile hnone hcompile⟩
  | line hcompile =>
    have hparent : ∀ frame, f.resume.map (·.1) = some frame → frame.Proper := by
      intro frame hframe
      obtain ⟨⟨frame', status⟩, hresume, rfl⟩ := Option.map_eq_some_iff.mp hframe
      exact hf.resume frame' status hresume
    have hthere := hf.goTo (Program.proper_of_compile hparent hcompile)
    exact ⟨hthere.here, hthere.returns, hthere.resume, hf.program.compile hparent hcompile⟩
  | start hframe =>
    have hthere := hf.goTo hframe
    exact ⟨hthere.here, hthere.returns, hthere.resume, hthere.program⟩

end Footing

end LineBasic
