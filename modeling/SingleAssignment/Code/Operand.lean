/-!
# Identifiers and operands

Instructions and blocks are known by integers. The instructions of a program are numbered from one
and its blocks from zero; any other integer names nothing.
-/

namespace SingleAssignment.Code

/-- Names an instruction. -/
abbrev InstId := Int

/-- Names a block. -/
abbrev BlockId := Int

/-- What an instruction works on: nothing, a literal, the value of an instruction, or a block that a
branch will go to once it has code. -/
inductive Operand where
  | none
  | literal (value : Int64)
  | inst (id : InstId)
  | pending (block : BlockId)
  deriving DecidableEq, Repr, Inhabited

namespace Operand

/-- Whether there is no operand. -/
def isNone : Operand → Bool
  | none => true
  | _ => false

/-- Whether the operand waits for a block. -/
def isPending : Operand → Bool
  | pending _ => true
  | _ => false

/-- The instruction that the operand refers to. -/
def inst? : Operand → Option InstId
  | inst id => some id
  | _ => Option.none

/-- How an operand is written. -/
def text : Operand → String
  | none => ""
  | literal n => s!"#{n}"
  | inst id => s!"({id})"
  | pending b => s!"BB{b}?"

end Operand

end SingleAssignment.Code
