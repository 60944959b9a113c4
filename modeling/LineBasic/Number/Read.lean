/-!
# Reading decimals

The texts that stand for numbers: digits with an optional point, sign and exponent, and the names
of infinity and of the undefined number in any case. Nothing else may stand in the text.
-/

namespace LineBasic.Number

set_option autoImplicit false

/-- The value of a digit character in base sixteen. -/
def digitValue? (c : Char) : Option Nat :=
  if '0' ≤ c ∧ c ≤ '9' then some (c.toNat - '0'.toNat)
  else if 'a' ≤ c ∧ c ≤ 'f' then some (c.toNat - 'a'.toNat + 10)
  else if 'A' ≤ c ∧ c ≤ 'F' then some (c.toNat - 'A'.toNat + 10)
  else none

def isHexDigit (c : Char) : Bool :=
  (digitValue? c).isSome

/-- The number written by a run of decimal digits. -/
def ofDigits (cs : List Char) : Nat :=
  cs.foldl (fun n c => 10 * n + (digitValue? c).getD 0) 0

/-- The double nearest to `whole.fraction * 10 ^ exponent`. -/
def ofDecimal (whole fraction : List Char) (exponent : Int) : Float :=
  let digits := ofDigits (whole ++ fraction)
  let scale := exponent - fraction.length
  if digits = 0 then 0
  else if 400 < scale then Float.ofScientific 1 false 400
  else if scale + (whole.length + fraction.length : Nat) < -400 then 0
  else if 0 ≤ scale then Float.ofScientific digits false scale.toNat
  else Float.ofScientific digits true (-scale).toNat

/-- The number written by hexadecimal digits, rounded after each digit. -/
def ofHexDigits (cs : List Char) : Float :=
  cs.foldl (fun n c => n * 16 + Float.ofNat ((digitValue? c).getD 0)) 0

/-- Takes a sign off the front; the flag tells a minus. -/
def splitSign : List Char → Bool × List Char
  | '-' :: cs => (true, cs)
  | '+' :: cs => (false, cs)
  | cs => (false, cs)

/-- The exponent that follows the digits: nothing, or a mark, an optional sign and digits. -/
def readExponent? : List Char → Option Int
  | [] => some 0
  | c :: cs =>
    if c = 'e' ∨ c = 'E' then
      let (negative, digits) := splitSign cs
      if digits.isEmpty || !digits.all Char.isDigit then none
      else some (if negative then -(ofDigits digits : Int) else (ofDigits digits : Int))
    else none

/-- Digits with an optional point and exponent, without a sign. -/
def readUnsigned? (cs : List Char) : Option Float :=
  let whole := cs.takeWhile Char.isDigit
  let rest := cs.dropWhile Char.isDigit
  let (fraction, rest) := match rest with
    | '.' :: more => (more.takeWhile Char.isDigit, more.dropWhile Char.isDigit)
    | _ => ([], rest)
  if whole.isEmpty && fraction.isEmpty then none
  else (readExponent? rest).map (ofDecimal whole fraction)

/-- Infinity and the undefined number, by name. -/
def readName? (cs : List Char) : Option Float :=
  match String.ofList (cs.map Char.toLower) with
  | "inf" | "infinity" => some (1 / 0)
  | "nan" => some (0 / 0)
  | _ => none

/-- Reads a whole text as a number. -/
def read? (cs : List Char) : Option Float :=
  let (negative, magnitude) := splitSign cs
  let value := match readName? magnitude with
    | some x => some x
    | none => readUnsigned? magnitude
  value.map fun x => if negative then -x else x

end LineBasic.Number
