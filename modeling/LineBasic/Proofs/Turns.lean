import LineBasic.Machine.Session
import LineBasic.Proofs.Effects

/-!
# Running without budgets

One turn of a machine is what it does before it looks at its budgets again: it runs one statement,
or notices that there is none. Turns depend only on what statements see, so neither the budgets nor
the events that wait have an influence on them.
-/

namespace LineBasic

set_option autoImplicit false

namespace Utterance

/-- The same after some more texts, which count as no output. -/
def preceded (u : Utterance) (texts : List String) : Utterance :=
  { u with texts := texts ++ u.texts }

/-- What tracing shows of a statement. -/
def traced (tracing : Bool) (pos : Pos) : List String :=
  if tracing then ["[" ++ toString pos.line ++ "]"] else []

end Utterance

namespace Machine

/-- Runs one statement, or stops where there is none. -/
def turn (m : Machine) : Machine :=
  match m.code with
  | none => { m with status := .stopped }
  | some block =>
    match block.statements[m.pc]? with
    | none => m.fallOff block
    | some s => m.step block s

theorem runFor_of_not_running {m : Machine} (h : m.status ≠ .running) (cycles : Nat) :
    runFor cycles m = m := by
  cases cycles with
  | zero => rfl
  | succ cycles => simp [runFor, mayStep, h]

theorem turn_of_none {m : Machine} (h : m.code = none) : m.turn = { m with status := .stopped } := by
  rw [turn, h]

theorem turn_of_end {m : Machine} {block : Block} (h : m.code = some block)
    (hpc : block.statements[m.pc]? = none) : m.turn = m.fallOff block := by
  simp only [turn, h, hpc]

theorem turn_of_statement {m : Machine} {block : Block} {s : Stmt Address}
    (h : m.code = some block) (hpc : block.statements[m.pc]? = some s) :
    m.turn = m.step block s := by
  simp only [turn, h, hpc]

theorem runFor_succ (cycles : Nat) (m : Machine) :
    runFor (cycles + 1) m = if m.mayStep then runFor cycles m.turn else m := by
  rw [runFor]
  split
  · split
    · rename_i hcode
      rw [turn_of_none hcode, runFor_of_not_running (by simp)]
    · rename_i block hcode
      split
      · rename_i hpc
        rw [turn_of_end hcode hpc, runFor_of_not_running (by simp [fallOff])]
      · rename_i s hpc
        rw [turn_of_statement hcode hpc]
  · rfl

/-- A change to a machine that only what statements see decides, and that leaves the fixtures. -/
def Moves (f : Machine → Machine) : Prop :=
  ∃ g : Sight × Place → (Sight × Place) × Utterance,
    (∀ v, Aspect.outer.fixed (g v).1 = Aspect.outer.fixed v) ∧
    ∀ m, f m = (Aspect.outer.put m (g (Aspect.outer.see m)).1).utter (g (Aspect.outer.see m)).2

theorem trace_eq (m : Machine) (pos : Pos) :
    m.trace pos = m.utter (Utterance.silence.preceded (Utterance.traced m.tracing pos)) := by
  unfold trace Utterance.traced
  split <;> simp [utter, Utterance.preceded, Utterance.silence, Utterance.extend, emit]

theorem utter_preceded (m : Machine) (texts : List String) (u : Utterance) :
    (m.utter (Utterance.silence.preceded texts)).utter u = m.utter (u.preceded texts) := by
  simp [utter, Utterance.preceded, Utterance.silence, Utterance.extend]

theorem see_utter (m : Machine) (u : Utterance) :
    Aspect.outer.see (m.utter u) = Aspect.outer.see m := rfl

theorem put_utter (m : Machine) (u : Utterance) (v : Sight × Place) :
    Aspect.outer.put (m.utter u) v = (Aspect.outer.put m v).utter u := rfl

theorem moves_abort (e : Error) (block : Block) (pos : Pos) : Moves (·.abort e block pos) := by
  refine ⟨fun v =>
    ((v.1, { v.2 with
        code := none, status := .stopped
        returns := if v.1.resume.isNone then v.2.returns.clear else v.2.returns }),
      .ofMark (.error ((e.locatedAt pos).withSource block.source)) rfl 0), fun _ => rfl,
    fun m => ?_⟩
  have hsee : (Aspect.outer.see m).1.resume.isNone = m.resume.isNone := rfl
  dsimp only [abort]
  rw [hsee]
  split <;> rfl

theorem moves_fallOff (block : Block) : Moves (·.fallOff block) := by
  refine ⟨fun v =>
    (({ v.1 with
        resume := v.1.resume.or (block.parent.map (·, .running)) },
      { v.2 with code := none, status := .stopped }), .silence), fun _ => rfl, fun m => ?_⟩
  have hsee : (Aspect.outer.see m).1.resume = m.resume := rfl
  rw [utter_silence]
  dsimp only [fallOff]
  rw [hsee]
  cases m.resume with
  | some frame => rfl
  | none => cases block.parent <;> rfl

theorem moves_step (block : Block) (s : Stmt Address) : Moves (·.step block s) := by
  obtain ⟨g, hfixed, hsilent, hg⟩ := Action.acts_exec s
  obtain ⟨k, hk⟩ := Classical.axiomOfChoice fun e => moves_abort e block s.pos
  dsimp only at hk
  refine ⟨fun v =>
    let texts := Utterance.traced v.1.tracing s.pos
    match g (v.1, { v.2 with pc := v.2.pc + 1 }) with
    | (.ok _, w, u) => (w, u.preceded texts)
    | (.error e, w, _) => ((k e w).1, (k e w).2.preceded texts), fun v => ?_, fun m => ?_⟩
  · have hkept := hfixed (v.1, { v.2 with pc := v.2.pc + 1 })
    dsimp only
    generalize g (v.1, { v.2 with pc := v.2.pc + 1 }) = r at hkept ⊢
    rcases r with ⟨r, w, u⟩
    cases r with
    | ok _ => exact hkept
    | error e => exact ((hk e).1 w).trans hkept
  have hsee : Aspect.outer.see m = (m.sight, m.place) := rfl
  have hnext : Aspect.outer.see { m with pc := m.pc + 1 } =
      (m.sight, { m.place with pc := m.place.pc + 1 }) := rfl
  have hput (w : Sight × Place) :
      Aspect.outer.put { m with pc := m.pc + 1 } w = Aspect.outer.put m w := rfl
  have htracing : m.sight.tracing = m.tracing := rfl
  dsimp only [step]
  rw [trace_eq, hg, see_utter, put_utter, hnext, hput, hsee]
  dsimp only
  rw [htracing]
  cases hresult : g (m.sight, { m.place with pc := m.place.pc + 1 }) with
  | mk r rest =>
    cases r with
    | ok _ => exact utter_preceded _ _ _
    | error e =>
      have hquiet : rest.2 = .silence := by
        simpa only [hresult] using hsilent _ e (congrArg Prod.fst hresult)
      dsimp only
      rw [hquiet, utter_silence, (hk e).2, see_utter, put_utter, Aspect.see_put, Aspect.put_put,
        utter_preceded]

theorem Moves.of_see {f : Sight × Place → Machine → Machine} (hf : ∀ v, Moves (f v)) :
    Moves fun m => f (Aspect.outer.see m) m := by
  obtain ⟨g, hg⟩ := Classical.axiomOfChoice hf
  exact ⟨fun v => g v v, fun v => (hg v).1 v, fun m => (hg _).2 m⟩

/-- Neither budgets nor events that wait have an influence on a turn. -/
theorem moves_turn : Moves turn := by
  apply Moves.of_see (f := fun v m => match v.2.code with
    | none => { m with status := .stopped }
    | some block => match block.statements[v.2.pc]? with
      | none => m.fallOff block
      | some s => m.step block s)
  intro v
  cases v.2.code with
  | none =>
    refine ⟨fun v => ((v.1, { v.2 with status := .stopped }), .silence), fun _ => rfl, fun m => ?_⟩
    rw [utter_silence]
    rfl
  | some block =>
    dsimp only
    cases block.statements[v.2.pc]? with
    | none => exact moves_fallOff block
    | some s => exact moves_step block s

/-! ### What stays -/

/-- What a machine never changes by itself. -/
def fixtures (m : Machine) :
    Config × Std.TreeMap String Command × Std.TreeMap String Function :=
  (m.config, m.commands, m.functions)

theorem Moves.fixtures {f : Machine → Machine} (hf : Moves f) (m : Machine) :
    (f m).fixtures = m.fixtures := by
  obtain ⟨g, hfixed, hg⟩ := hf
  have hkept := hfixed (Aspect.outer.see m)
  rw [hg]
  generalize g (Aspect.outer.see m) = r at hkept ⊢
  rcases r with ⟨w, u⟩
  have hsigned : w.1.signedStep = m.config.signedStep := congrArg (·.signedStep) hkept
  have hcommands : w.1.commands = m.commands := congrArg (·.commands) hkept
  have hfunctions : w.1.functions = m.functions := congrArg (·.functions) hkept
  change ({ m.config with signedStep := w.1.signedStep }, w.1.commands, w.1.functions) = _
  rw [hsigned, hcommands, hfunctions]
  rfl

theorem runFor_fixtures (cycles : Nat) (m : Machine) : (runFor cycles m).fixtures = m.fixtures := by
  induction cycles generalizing m with
  | zero => rfl
  | succ cycles ih =>
    rw [runFor_succ]
    split
    · rw [ih, moves_turn.fixtures]
    · rfl

theorem quantum_fixtures (m : Machine) : m.quantum.fixtures = m.fixtures := by
  by_cases hrunning : m.status = .running
  · rw [quantum, if_pos hrunning, runFor_fixtures]
    rfl
  · rw [quantum, if_neg hrunning]

/-! ### What the host does to a machine -/

theorem execute_of_cons {m : Machine} {e : Event} {rest : List Event} (h : m.pending = e :: rest)
    (clock : Clock) : m.execute clock = (e, { m with clock := clock, pending := rest }) := by
  simp only [execute, h]

/-- The event after a machine ran, and what is left of the machine then. -/
def tell (m : Machine) : Event × Machine :=
  match m.pending with
  | e :: rest => (e, { m with pending := rest })
  | [] => (m.statusEvent, m)

theorem execute_of_nil {m : Machine} (h : m.pending = []) (clock : Clock) :
    m.execute clock = ({ m with clock := clock } : Machine).wake.quantum.tell := by
  simp only [execute, h]
  rfl

theorem wake_of_not_asleep {m : Machine} (h : ∀ wake, m.status ≠ .asleep wake) : m.wake = m := by
  unfold wake
  split
  · exact absurd ‹_› (h _)
  · rfl

theorem execute_fixtures (m : Machine) (clock : Clock) :
    (m.execute clock).2.fixtures = m.fixtures := by
  have htell (n : Machine) : n.tell.2.fixtures = n.fixtures := by
    unfold tell
    split <;> rfl
  cases hpending : m.pending with
  | cons e rest =>
    rw [execute_of_cons hpending]
    rfl
  | nil =>
    rw [execute_of_nil hpending, htell, quantum_fixtures]
    unfold wake
    split
    · split <;> rfl
    · rfl

theorem moves_silent {f : Machine → Machine} (g : Sight × Place → Sight × Place)
    (hfixed : ∀ v, Aspect.outer.fixed (g v) = Aspect.outer.fixed v)
    (h : ∀ m, f m = Aspect.outer.put m (g (Aspect.outer.see m))) : Moves f :=
  ⟨fun v => (g v, .silence), hfixed, fun m => by rw [utter_silence, h]⟩

theorem moves_setListing (listing : Listing) : Moves (·.setListing listing) :=
  moves_silent (fun v => ({ v.1 with scope := v.1.scope.clear, listing := listing }, v.2))
    (fun _ => rfl) fun _ => rfl

/-- A compiled line is run, and an error is reported. -/
def afterCompiling : Except Error Block × Machine → Machine
  | (.ok block, m) => m.run block 0
  | (.error e, m) => m.pushEvent (.error e)

/-- The same, as far as statements see it. -/
def sightAfterCompiling (place : Place) : Except Error Block × Sight → (Sight × Place) × Utterance
  | (.ok block, s) => ((s, { place with code := some block, pc := 0, status := .running }), .silence)
  | (.error e, s) => ((s, place), .ofMark (.error e) rfl 0)

theorem moves_runLine (line : String) : Moves (·.runLine line) := by
  apply Moves.of_see (f := fun v m => afterCompiling (m.compile line (v.1.resume.map (·.1))))
  intro v
  obtain ⟨g, hfixed, hg⟩ := (Action.within_compile line (v.1.resume.map (·.1))).inner
  refine ⟨fun w => sightAfterCompiling w.2 (g w.1), fun w => ?_, fun m => ?_⟩
  · have hkept := hfixed w.1
    dsimp only
    generalize g w.1 = r at hkept ⊢
    rcases r with ⟨r, s⟩
    cases r with
    | ok block => exact hkept
    | error e => exact hkept
  have hcompile : m.compile line (v.1.resume.map (·.1)) =
      ((g m.sight).1, m.withSight (g m.sight).2) := hg m
  have hsee : Aspect.outer.see m = (m.sight, m.place) := rfl
  dsimp only
  rw [hcompile, hsee]
  dsimp only
  cases g m.sight with
  | mk r s =>
    cases r with
    | ok block =>
      dsimp only [afterCompiling, sightAfterCompiling]
      rw [utter_silence]
      rfl
    | error e => rfl

/-- Entering a line, when the status and the listing of the machine are known. -/
def enterAt (entry : List Char) (listing : Listing) (m : Machine) : Status → Machine
  | .input _ targets =>
    { m with scope := assignFields m.scope targets (inputFields targets entry), status := .running }
  | _ =>
    if (Text.trim entry).isEmpty then m
    else match listing.placeNumbered? (Text.trim entry) with
      | some listing => { m with listing := listing }
      | none => m.runLine (String.ofList (Text.trim entry))

theorem moves_enter (line : String) : Moves (·.enter line) := by
  let entry := (line.toList.reverse.dropWhile fun c => c == '\n' || c == '\r').reverse
  apply Moves.of_see (f := fun v m => enterAt entry v.1.listing m v.2.status)
  intro v
  unfold enterAt
  split
  · exact moves_silent (fun v =>
      ({ v.1 with scope := assignFields v.1.scope _ (inputFields _ entry) },
        { v.2 with status := .running })) (fun _ => rfl) fun _ => rfl
  · split
    · exact moves_silent id (fun _ => rfl) fun _ => rfl
    · split
      · rename_i listing _
        exact moves_silent (fun v => ({ v.1 with listing := listing }, v.2)) (fun _ => rfl)
          fun _ => rfl
      · exact moves_runLine _

/-- An interrupt, when the status and the code of the machine are known. -/
def interruptAt (m : Machine) : Status → Option Block → Machine
  | .stopped, _ => m
  | _, none => { m with status := .stopped }
  | prior, some block =>
    ({ m with status := .stopped, code := none, resume := some (⟨block, m.pc⟩, prior) } :
      Machine).pushEvent (.error (breakError block m.pc))

theorem moves_interrupt : Moves interrupt := by
  apply Moves.of_see (f := fun v m => interruptAt m v.2.status v.2.code)
  intro v
  unfold interruptAt
  split
  · exact moves_silent id (fun _ => rfl) fun _ => rfl
  · exact moves_silent (fun v => (v.1, { v.2 with status := .stopped })) (fun _ => rfl) fun _ => rfl
  · rename_i block _ _
    exact ⟨fun v =>
      (({ v.1 with resume := some (⟨block, v.2.pc⟩, _) },
          { v.2 with status := .stopped, code := none }),
        .ofMark (.error (breakError block v.2.pc)) rfl 0), fun _ => rfl, fun _ => rfl⟩

end Machine

end LineBasic
