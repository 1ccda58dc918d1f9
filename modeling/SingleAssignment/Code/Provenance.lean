import SingleAssignment.Code.Opcode
import SingleAssignment.Code.Operand

/-!
# Provenance

The provenance of an operand says where its value came from when it was written: a literal, a
variable read at some place, or an operation on operands with a provenance of their own. When the
value changes later, replaying the provenance gives the new one. Each node also remembers the
instruction that held the value at the time.
-/

namespace SingleAssignment.Code

/-- Tells loads apart that may see different memory: the array, and the number of stores to it that
came before. -/
structure MemoryTag where
  array : String := ""
  epoch : Int := 0
  deriving DecidableEq, Repr, Inhabited

/-- Where the value of an operand came from. -/
inductive Provenance where
  /-- Nothing is recorded. -/
  | absent
  /-- Only the instruction is recorded. -/
  | unknown (inst : InstId)
  /-- A literal, with the constant that holds it. -/
  | immediate (literal : Int64) (inst : InstId)
  /-- A variable as it was read in a block. -/
  | read (name : String) (version : Int) (block : BlockId) (inst : InstId)
  /-- An operation on two operands; `tag` is that of a load. -/
  | result (op : Opcode) (inst : InstId) (x y : Provenance) (tag : MemoryTag)
  deriving DecidableEq, Repr, Inhabited

namespace Provenance

/-- Whether anything is recorded. -/
def isPresent : Provenance → Bool
  | absent => false
  | _ => true

/-- Whether the value can be computed again from the recorded operands. -/
def isReplayable : Provenance → Bool
  | result op _ x y _ => op.isNumbered && op != .const && (x.isPresent || y.isPresent)
  | _ => false

/-- The instructions that computed the value, in order of evaluation. -/
def history : Provenance → List InstId
  | result _ inst x y _ => x.history ++ y.history ++ [inst]
  | _ => []

/-- How a provenance is written. -/
def text : Provenance → String
  | absent => "_"
  | unknown _ => "?"
  | immediate n _ => s!"#{n}"
  | read name version _ _ => s!"{name}_{version}"
  | result op inst absent absent _ => s!"{op.name}({inst})"
  | result op _ x absent _ => s!"{op.name}({x.text})"
  | result op _ absent y _ => s!"{op.name}({y.text})"
  | result op _ x y _ => s!"{op.name}({x.text}, {y.text})"

end Provenance

end SingleAssignment.Code
