import LineBasic.Number.Binary

/-!
# The fewest digits that read back

A double stands for every real number that rounds to it. Of the decimals in that interval, the
shortest one is written, and of those with equally many digits the nearest. The search tries the
value's two neighbours on the grid of one digit, of two digits, and so on, in exact arithmetic.
-/

namespace LineBasic.Number

set_option autoImplicit false

/-- The value `digits * 10 ^ exponent`. -/
structure Decimal where
  digits : Nat
  exponent : Int
deriving DecidableEq, Repr

namespace Decimal

/-- Whether `10 ^ p ≤ m * 2 ^ q`. -/
def powerLe (p : Int) (m : Nat) (q : Int) : Bool :=
  Nat.pow 10 p.toNat * Nat.pow 2 (-q).toNat ≤ m * Nat.pow 2 q.toNat * Nat.pow 10 (-p).toNat

/-- The exponent of the leading decimal digit of `m * 2 ^ q`, by an estimate that is off by at most
one. -/
def leadingExponent (m : Nat) (q : Int) : Int :=
  let p := ((Nat.log2 m : Int) + q) * 30103 / 100000
  if powerLe (p + 1) m q then p + 1
  else if powerLe p m q then p
  else p - 1

/-- A neighbour of `m * 2 ^ q` on the grid `10 ^ k` that reads back, the nearer one if both do and
the upper one on a tie. Distances are counted in quarters of `2 ^ q`. -/
def onGrid? (m : Nat) (q : Int) (k : Int) : Option Nat :=
  let unit := Nat.pow 10 k.toNat * Nat.pow 2 (2 - q).toNat
  let quarter := Nat.pow 2 (q - 2).toNat * Nat.pow 10 (-k).toNat
  let value := 4 * m * quarter
  let low := (4 * m - if m = Binary.leadingBit ∧ -1074 < q then 1 else 2) * quarter
  let high := (4 * m + 2) * quarter
  let closed := m % 2 == 0
  let below := value / unit
  let isBelow := low < below * unit || (closed && low == below * unit)
  let isAbove := (below + 1) * unit < high || (closed && (below + 1) * unit == high)
  if isAbove && (!isBelow || unit ≤ 2 * (value % unit)) then some (below + 1)
  else if isBelow then some below
  else none

/-- The first grid, from `n` digits on, with a neighbour that reads back. -/
def search (m : Nat) (q : Int) (lead : Int) : (tries n : Nat) → Decimal
  | 0, _ => ⟨Binary.shift m q, 0⟩
  | tries + 1, n =>
    let k := lead + 1 - (n : Int)
    match onGrid? m q k with
    | some d => if d = Nat.pow 10 n then ⟨1, k + n⟩ else ⟨d, k⟩
    | none => search m q lead tries (n + 1)

/-- The shortest decimal for the positive value `m * 2 ^ q`; seventeen digits always suffice. -/
def shortest (m : Nat) (q : Int) : Decimal :=
  search m q (leadingExponent m q) 17 1

/-- The decimal in positional notation, without an exponent. -/
def positional (d : Decimal) : String :=
  let digits := Nat.toDigits 10 d.digits
  if 0 ≤ d.exponent then
    String.ofList (digits ++ List.replicate d.exponent.toNat '0')
  else
    let places := (-d.exponent).toNat
    let padded := List.replicate (places + 1 - digits.length) '0' ++ digits
    let point := padded.length - places
    String.ofList (padded.take point ++ '.' :: padded.drop point)

end Decimal

/-- A number as `print` shows it and as line labels are keyed: positional, with the fewest digits,
and zero without a sign. -/
def text (x : Float) : String :=
  match Binary.ofFloat? x with
  | none => if x.isNaN then "NaN" else if x > 0 then "Infinity" else "-Infinity"
  | some b =>
    if b.mantissa = 0 then "0"
    else
      let magnitude := (Decimal.shortest b.mantissa b.exponent).positional
      if b.negative then "-" ++ magnitude else magnitude

end LineBasic.Number
