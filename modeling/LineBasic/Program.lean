import LineBasic.Code.Parser
import LineBasic.DataQueue
import Std.Data.TreeMap

/-!
# Blocks and labels

A block is a program that was read, or a line entered at the prompt. Blocks are numbered, and a
number is never given out twice. A line entered while a program is suspended remembers where that
program stands. The label table knows the latest place of every label, by the number of its block.
-/

namespace LineBasic

set_option autoImplicit false

mutual

structure Block where
  id : Nat
  statements : Array (Stmt Address)
  source : String
  /-- Where the program stands that was suspended when this line was entered. -/
  parent : Option Frame

/-- A place in a block: the statement to run next. -/
structure Frame where
  block : Block
  addr : Address

end

/-- The value of a data literal. -/
def Constant.value : Constant → Value
  | number x => .number x
  | text s => .text s
  | bool b => .bool b

/-- The labels of all blocks. A label names its block by number, and only blocks with labels are held. -/
structure Program where
  nextId : Nat := 0
  blocks : Std.TreeMap Nat Block := ∅
  labels : Std.TreeMap String (Nat × Address) := ∅

namespace Program

/-- Forgets all labels; block numbers go on. -/
def clear (p : Program) : Program :=
  { p with blocks := ∅, labels := ∅ }

/-- Enters labels of a block, if it has any; of two equal ones the later stays. -/
def addLabels (p : Program) (block : Block) (labels : List (String × Address)) : Program :=
  if labels.isEmpty then p
  else
    { p with
      labels := labels.foldl (fun t l => t.insert l.1 (block.id, l.2)) p.labels
      blocks := p.blocks.insert block.id block }

/-- Reads a source as a new block. Its data literals join the queue. -/
def compile (p : Program) (data : DataQueue) (source : String) (parent : Option Frame) :
    Except Error (Block × Program × DataQueue) := do
  let code ← parse source
  let block : Block := ⟨p.nextId, code.statements, source, parent⟩
  let program := ({ p with nextId := p.nextId + 1 }).addLabels block code.labels
  pure (block, program, data.pushAll (code.data.map Constant.value))

/-- The place of a label, if its block is held. -/
def label? (p : Program) (name : String) : Option Frame := do
  let (id, addr) ← p.labels[name]?
  let block ← p.blocks[id]?
  pure ⟨block, addr⟩

end Program

end LineBasic
