/-!
# Positions in a source text
-/

namespace LineBasic

set_option autoImplicit false

/-- A line and a column, both counted from one. -/
structure Pos where
  line : Nat
  col : Nat
deriving DecidableEq, Repr, Inhabited

/-- The position as messages show it. -/
def Pos.text (p : Pos) : String :=
  toString p.line ++ ":" ++ toString p.col

end LineBasic
