import LineBasic.Text.Lines
import Std.Data.TreeMap

/-!
# Numbered program lines

Lines keep their text as typed, with the number in front, which the program reader takes as a label.
Lines without a number follow the line with the highest number given out so far.
-/

namespace LineBasic

set_option autoImplicit false

structure Listing where
  lines : Std.TreeMap Nat String := ∅
  /-- The highest number given out, which may pass the bound for numbers in front of lines. -/
  last : Nat := 0
deriving Inhabited

namespace Listing

/-- The first number that is too large for a line. -/
def numberBound : Nat := UInt64.size

/-- The number in front of a line and the text behind it, without blanks around it. -/
def leadingNumber? (line : List Char) : Option (Nat × List Char) :=
  let digits := line.takeWhile Char.isDigit
  let n := Nat.ofDigitChars 10 digits 0
  if digits.isEmpty || numberBound ≤ n then none
  else some (n, Text.trim (line.drop digits.length))

/-- Places a line that starts with a dot: it gets a number ten past the last one. -/
def placeNext (l : Listing) (rest : List Char) : Listing :=
  let n := l.last + 10
  ⟨l.lines.insert n (toString n ++ " " ++ String.ofList (Text.trim rest)), n⟩

/-- Places a line with a number; a number alone deletes its line. -/
def placeAt (l : Listing) (n : Nat) (rest line : List Char) : Listing :=
  ⟨if rest.isEmpty then l.lines.erase n else l.lines.insert n (String.ofList line), max l.last n⟩

/-- Places a line without a number. -/
def append (l : Listing) (line : List Char) : Listing :=
  ⟨l.lines.insert (l.last + 1) (String.ofList line), l.last + 1⟩

/-- Places a line that has a number or a dot in front. -/
def placeNumbered? (l : Listing) (line : List Char) : Option Listing :=
  match line with
  | '.' :: rest => some (l.placeNext rest)
  | _ => (leadingNumber? line).map fun (n, rest) => l.placeAt n rest line

/-- Places any line. -/
def place (l : Listing) (line : List Char) : Listing :=
  (l.placeNumbered? line).getD (l.append line)

/-- The lines of a text that belong in a listing: not blank and not starting with `#`. -/
def programLines (source : String) : List (List Char) :=
  (Text.lines source.toList).filter fun line =>
    !(Text.trim line).isEmpty && line.head? != some '#'

/-- The listing of a program text. -/
def ofSource (source : String) : Listing :=
  (programLines source).foldl place {}

/-- The numbered lines in order. -/
def toList (l : Listing) : List (Nat × String) :=
  l.lines.toList

def isEmpty (l : Listing) : Bool :=
  l.lines.isEmpty

def size (l : Listing) : Nat :=
  l.lines.size

/-- The lines numbered `first` to `last`, with line breaks between them. -/
def range (l : Listing) (first : Nat) (last : Option Nat) : String :=
  let within (e : Nat × String) := first ≤ e.1 && last.all (e.1 ≤ ·)
  "\n".intercalate ((l.toList.filter within).map (·.2))

/-- The whole program text. -/
def source (l : Listing) : String :=
  l.range 0 none

end Listing

end LineBasic
