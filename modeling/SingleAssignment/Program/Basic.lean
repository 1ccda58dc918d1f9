import SingleAssignment.Builder.Finish

/-!
# Finished programs

A program has instructions, numbered from one, and blocks, numbered from zero. The versions of the
variables stay with it, so that a listing can show them.
-/

namespace SingleAssignment

open Code Builder

/-- A finished program. -/
structure Program where
  insts : Array Instruction
  blocks : Array Block
  versions : Array Version
  diagnostics : Array Diagnostic
  deriving Inhabited

/-- The program that was finished when the state had the given extent. -/
def Builder.State.program (s : State) (e : Extent) : Program where
  insts := s.insts.extract 0 e.insts
  blocks := s.blocks.extract 0 e.blocks
  versions := s.versions
  diagnostics := s.diagnostics.extract 0 e.diagnostics

namespace Program

/-- The instruction that an id names. -/
def inst? (p : Program) (id : InstId) : Option Instruction :=
  if 0 < id then p.insts[(id - 1).toNat]? else none

/-- The block that an id names. -/
def block? (p : Program) (id : BlockId) : Option Block :=
  if 0 ≤ id then p.blocks[id.toNat]? else none

/-- The active instructions of a block in order. -/
def order (p : Program) (b : Block) : List Instruction :=
  (b.order.filterMap p.inst?).filter (·.active)

/-- The active instructions, block by block. -/
def active (p : Program) : List Instruction :=
  p.blocks.toList.flatMap p.order

/-- The names of the variables that have a version in a block. -/
def variablesIn (_ : Program) (b : Block) : List String :=
  (Names.ofList (b.table.map Prod.fst)).toList

/-- The versions of a variable in a block, latest first. -/
def versionsOf (p : Program) (b : Block) (name : String) : List Version :=
  (b.table.get name).reverse.filterMap (p.versions[·]?)

end Program

end SingleAssignment
