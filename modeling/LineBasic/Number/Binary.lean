/-!
# Doubles as exact binary fractions

A finite double is `± mantissa * 2 ^ exponent`. Rounding to whole numbers and the remainder of a
division are computed on this form, in exact arithmetic on natural numbers.
-/

namespace LineBasic.Number

set_option autoImplicit false

/-- The value `± mantissa * 2 ^ exponent`. Zero keeps its sign. -/
structure Binary where
  negative : Bool
  mantissa : Nat
  exponent : Int
deriving DecidableEq, Repr

namespace Binary

/-- The sign's place in the bits of a double. -/
def signBit : Nat := 9223372036854775808

/-- The leading bit of the mantissas of all doubles but the smallest, and the lowest place of the
exponent. -/
def leadingBit : Nat := 4503599627370496

/-- The exact value of a finite double. -/
def ofFloat? (x : Float) : Option Binary :=
  let bits : Nat := x.toBits.toNat
  let negative := bits / signBit % 2 == 1
  let field : Nat := bits / leadingBit % 2048
  let fraction : Nat := bits % leadingBit
  if field = 2047 then none
  else if field = 0 then some ⟨negative, fraction, -1074⟩
  else some ⟨negative, leadingBit + fraction, (field : Int) - 1075⟩

/-- Moves the binary point of `m` by `k` places, dropping what falls below it. -/
def shift (m : Nat) (k : Int) : Nat :=
  if 0 ≤ k then m * Nat.pow 2 k.toNat else m / Nat.pow 2 (-k).toNat

/-- The double of a value that a double can hold exactly. -/
def toFloat (b : Binary) : Float :=
  let sign := if b.negative then signBit else 0
  if b.mantissa = 0 then Float.ofBits (UInt64.ofNat sign)
  else
    let exponent := max (-1074) (b.exponent + (Nat.log2 b.mantissa : Int) - 52)
    let mantissa := shift b.mantissa (b.exponent - exponent)
    let magnitude :=
      if mantissa < leadingBit then mantissa
      else (exponent + 1075).toNat * leadingBit + (mantissa - leadingBit)
    Float.ofBits (UInt64.ofNat (sign + magnitude))

/-- The whole part of the magnitude. -/
def wholePart (b : Binary) : Nat :=
  shift b.mantissa b.exponent

/-- Whether there is no fraction. -/
def isWhole (b : Binary) : Bool :=
  0 ≤ b.exponent || b.mantissa % Nat.pow 2 (-b.exponent).toNat == 0

end Binary

/-- The whole number that a double is, if it is one. -/
def whole? (x : Float) : Option Int :=
  match Binary.ofFloat? x with
  | none => none
  | some b =>
    if b.isWhole then
      some (if b.negative then -(b.wholePart : Int) else (b.wholePart : Int))
    else none

/-- The natural number that a double is, if it is one. -/
def nat? (x : Float) : Option Nat :=
  match whole? x with
  | some (.ofNat n) => some n
  | _ => none

/-- The largest whole number that is not greater. -/
def floor (x : Float) : Float :=
  match Binary.ofFloat? x with
  | none => x
  | some b =>
    if b.isWhole then x
    else if b.negative then -Float.ofNat (b.wholePart + 1)
    else Float.ofNat b.wholePart

/-- The smallest whole number that is not less. -/
def ceiling (x : Float) : Float :=
  match Binary.ofFloat? x with
  | none => x
  | some b =>
    if b.isWhole then x
    else if b.negative then -Float.ofNat b.wholePart
    else Float.ofNat (b.wholePart + 1)

/-- The nearest whole number, halves going up. -/
def round (x : Float) : Float :=
  floor (x + 0.5)

/-- What truncated division leaves: it has the sign of the dividend and is exact. -/
def remainder (x y : Float) : Float :=
  match Binary.ofFloat? x, Binary.ofFloat? y with
  | some a, some b =>
    if b.mantissa = 0 then 0 / 0
    else
      let e := min a.exponent b.exponent
      let m := Binary.shift a.mantissa (a.exponent - e) % Binary.shift b.mantissa (b.exponent - e)
      Binary.toFloat ⟨a.negative, m, e⟩
  | some _, none => if y.isNaN then y else x
  | none, _ => 0 / 0

/-- The whole part of a non-negative double, at most `bound`. -/
def floorNat (bound : Nat) (x : Float) : Nat :=
  match Binary.ofFloat? x with
  | none => if x > 0 then bound else 0
  | some b => if b.negative then 0 else min b.wholePart bound

/-- A non-negative finite double times `10 ^ places`, to the nearest natural number; of two nearest ones
to the even one. -/
def scaledNat (places : Nat) (x : Float) : Nat :=
  match Binary.ofFloat? x with
  | none => 0
  | some b =>
    let m := b.mantissa * Nat.pow 10 places
    if 0 ≤ b.exponent then m * Nat.pow 2 b.exponent.toNat
    else
      let d := Nat.pow 2 (-b.exponent).toNat
      let n := m / d
      let rest := m % d
      if d < 2 * rest || (2 * rest == d && n % 2 == 1) then n + 1 else n

end LineBasic.Number
