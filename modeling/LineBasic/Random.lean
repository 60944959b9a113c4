/-!
# The random source

Random numbers come from a generator that the host supplies. All that the machine knows of it is how a
seed starts a sequence and how a sequence goes on.
-/

namespace LineBasic

set_option autoImplicit false

/-- A generator of random numbers, whose states are counted. -/
structure Generator where
  /-- The state that a seed starts with. -/
  start : UInt64 → Nat
  /-- A number from zero up to, not including, one, and the state after it. -/
  next : Nat → Float × Nat
deriving Inhabited

/-- A generator and the state that it is in. -/
structure Random where
  generator : Generator
  state : Nat
deriving Inhabited

/-- A generator with one word of state. Each draw advances the state by a fixed odd step and scrambles
it. -/
def Generator.splitMix : Generator where
  start seed := seed.toNat
  next state :=
    let s := state.toUInt64 + 0x9E3779B97F4A7C15
    let z := (s ^^^ (s >>> 30)) * 0xBF58476D1CE4E5B9
    let z := (z ^^^ (z >>> 27)) * 0x94D049BB133111EB
    (((z ^^^ (z >>> 31)) >>> 11).toFloat / 9007199254740992, s.toNat)

namespace Random

def ofSeed (seed : UInt64) (generator : Generator := .splitMix) : Random :=
  ⟨generator, generator.start seed⟩

/-- Starts another sequence. -/
def reseed (r : Random) (seed : UInt64) : Random :=
  { r with state := r.generator.start seed }

def draw (r : Random) : Float × Random :=
  let (x, state) := r.generator.next r.state
  (x, { r with state := state })

end Random

end LineBasic
