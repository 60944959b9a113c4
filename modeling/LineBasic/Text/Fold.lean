import LineBasic.Text.Cased
import LineBasic.Text.LowerCase

/-!
# Folding a whole text to lower case

Names and keys given as texts are folded as a whole: a capital sigma at the end of a word becomes
`ς` and elsewhere `σ`. Character by character folding, which never looks at neighbours, is
`foldChars`.
-/

namespace LineBasic.Text

set_option autoImplicit false

/-- The nearest character that is not case-ignorable has a case. -/
def meetsCased (cs : List Char) : Bool :=
  match cs.dropWhile isCaseIgnorable with
  | [] => false
  | c :: _ => isCased c

/-- The lower case of a text, given the characters before it in reverse. -/
def foldAfter : List Char → List Char → List Char
  | _, [] => []
  | before, c :: cs =>
    (if c = 'Σ' then
      if meetsCased before && !meetsCased cs then ['ς'] else ['σ']
    else lowerCase c) ++ foldAfter (c :: before) cs

/-- The lower case of a whole text. -/
def fold (s : String) : String :=
  String.ofList (foldAfter [] s.toList)

end LineBasic.Text
