import LineBasic.Text.Blank

/-!
# Cutting texts

Lines of a text, fields of a line, and whether one text occurs in another.
-/

namespace LineBasic.Text

set_option autoImplicit false

/-- The lines of a text. A line ends at a line feed, and a carriage return right before the line
feed belongs to the ending. -/
def lines : List Char → List (List Char)
  | [] => []
  | '\r' :: '\n' :: cs => [] :: lines cs
  | '\n' :: cs => [] :: lines cs
  | c :: cs =>
    match lines cs with
    | [] => [[c]]
    | l :: ls => (c :: l) :: ls

/-- The fields between separators; there is always at least one. -/
def fields (separator : Char) : List Char → List (List Char)
  | [] => [[]]
  | c :: cs =>
    if c = separator then [] :: fields separator cs
    else match fields separator cs with
      | [] => [[c]]
      | f :: fs => (c :: f) :: fs

/-- Whether `part` occurs in a text as a contiguous piece. -/
def occursIn (part : List Char) : List Char → Bool
  | [] => part.isEmpty
  | c :: cs => part.isPrefixOf (c :: cs) || occursIn part cs

end LineBasic.Text
