/-!
# Opcodes

An operation yields a constant, computes, moves data, chooses a value, transfers control, or does
input and output.
An opcode outside the instruction set is kept by its code; no rule below applies to it.
-/

namespace SingleAssignment.Code

/-- The operation of an instruction. -/
inductive Opcode where
  | const | add | sub | mul | div | cmp | adda | load | store | phi | halt
  | bra | bne | beq | ble | blt | bge | bgt
  | read | write | writeNL | nop | empty
  /-- An operation outside the instruction set. -/
  | other (code : Int)
  deriving DecidableEq, Repr, Inhabited

namespace Opcode

/-- The instruction set, in the order of the codes. -/
def all : List Opcode :=
  [const, add, sub, mul, div, cmp, adda, load, store, phi, halt, bra, bne, beq, ble, blt, bge, bgt,
    read, write, writeNL, nop, empty]

/-- The operation with a code. -/
def ofCode (n : Int) : Opcode :=
  if 0 ≤ n then all.getD n.toNat (other n) else other n

/-- How an operation is written. -/
def name : Opcode → String
  | const => "const"
  | add => "add"
  | sub => "sub"
  | mul => "mul"
  | div => "div"
  | cmp => "cmp"
  | adda => "adda"
  | load => "load"
  | store => "store"
  | phi => "phi"
  | halt => "end"
  | bra => "bra"
  | bne => "bne"
  | beq => "beq"
  | ble => "ble"
  | blt => "blt"
  | bge => "bge"
  | bgt => "bgt"
  | read => "read"
  | write => "write"
  | writeNL => "writeNL"
  | nop => "nop"
  | empty => "empty"
  | other n => s!"op({n})"

/-- The operation with this name. -/
def ofName? (s : String) : Option Opcode :=
  all.find? (·.name == s)

/-- Whether the operation transfers control if a comparison came out a certain way. -/
def isConditional : Opcode → Bool
  | bne | beq | ble | blt | bge | bgt => true
  | _ => false

/-- Whether the operation transfers control. -/
def isBranch (o : Opcode) : Bool :=
  o == bra || o.isConditional

/-- Whether swapping the operands keeps the value. -/
def isCommutative : Opcode → Bool
  | add | mul => true
  | _ => false

/-- Whether the operation computes a value from two operands. -/
def isArithmetic : Opcode → Bool
  | add | sub | mul | div | cmp | adda => true
  | _ => false

/-- Whether instructions with this operation take part in value numbering: two of them with equal
operands have equal values. -/
def isNumbered (o : Opcode) : Bool :=
  o == const || o == load || o.isArithmetic

end Opcode

end SingleAssignment.Code
