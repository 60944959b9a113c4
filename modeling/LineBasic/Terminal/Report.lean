import LineBasic.Error

/-!
# Error reports

An error as the terminal shows it: the line that it points at with a red caret under the column,
and the message in bold.
-/

namespace LineBasic.Terminal

set_option autoImplicit false

/-- A text between an escape sequence that switches a style on and the one that ends it. -/
def styled (style : String) (s : String) : String :=
  "\x1b[" ++ style ++ "m" ++ s ++ "\x1b[0m"

def report (e : Error) : String :=
  let place := match e.excerpt, e.pos with
    | some excerpt, some pos =>
      excerpt ++ "\n" ++ String.ofList (List.replicate (pos.col - 1) ' ') ++ styled "31" "^" ++ "\n"
    | _, _ => ""
  place ++ styled "1" ("?" ++ e.message) ++ "\n"

end LineBasic.Terminal
