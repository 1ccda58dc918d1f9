import SingleAssignment.Code.Provenance

/-!
# Instructions

An instruction has an operation, two operand slots with their provenances, and the block it belongs
to. It is active until it is retired. `deps` names the versions of variables whose value was
computed from it.
-/

namespace SingleAssignment.Code

/-- Names one version of a variable in one block. -/
structure VersionRef where
  var : String
  block : BlockId
  number : Int
  deriving DecidableEq, Repr, Inhabited

/-- How a version is written. -/
def VersionRef.text (r : VersionRef) : String :=
  s!"{r.var}_{r.number}@BB{r.block}"

/-- The two operand slots. -/
inductive Side where
  | x
  | y
  deriving DecidableEq, Repr, Inhabited

/-- The number of a slot. -/
def Side.index : Side → Int
  | x => 0
  | y => 1

/-- The slot with a number. -/
def Side.ofIndex? (n : Int) : Option Side :=
  if n = 0 then some x else if n = 1 then some y else none

/-- One operation of a program. -/
structure Instruction where
  id : InstId
  op : Opcode
  x : Operand := .none
  y : Operand := .none
  block : BlockId := 0
  srcX : Provenance := .absent
  srcY : Provenance := .absent
  deps : List VersionRef := []
  active : Bool := true
  /-- Of a load or a store, the memory it reads or changes. -/
  memory : Option MemoryTag := Option.none
  deriving DecidableEq, Repr, Inhabited

namespace Instruction

/-- The operand in a slot. -/
def slot (i : Instruction) : Side → Operand
  | .x => i.x
  | .y => i.y

/-- The provenance of the operand in a slot. -/
def source (i : Instruction) : Side → Provenance
  | .x => i.srcX
  | .y => i.srcY

/-- The instruction with another operand in a slot. -/
def withSlot (i : Instruction) (side : Side) (o : Operand) : Instruction :=
  match side with
  | .x => { i with x := o }
  | .y => { i with y := o }

/-- The operands that there are. -/
def operands (i : Instruction) : List Operand :=
  [i.x, i.y].filter fun o => !o.isNone

/-- The instructions that the operands refer to. -/
def uses (i : Instruction) : List InstId :=
  [i.x, i.y].filterMap Operand.inst?

/-- Whether a slot holds the target of a branch and not a value. -/
def isTarget (i : Instruction) (side : Side) : Bool :=
  i.op.isBranch && (side == .y || i.op == .bra)

/-- The instruction records that version `r` was computed from it. -/
def addDep (i : Instruction) (r : VersionRef) : Instruction :=
  if i.deps.contains r then i else { i with deps := i.deps ++ [r] }

/-- How an instruction is written. -/
def text (i : Instruction) : String :=
  s!"{i.id}: {i.op.name}" ++ String.join (i.operands.map fun o => " " ++ o.text)

end Instruction

end SingleAssignment.Code
