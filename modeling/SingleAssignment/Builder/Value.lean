import SingleAssignment.Builder.Error

/-!
# Value numbering

An operation on operands that some instruction has computed already is not computed again: the
instruction is looked for along the dominators of the block, nearest first, and found by operation
and operands. Sums and products match with their operands swapped. Loads match only with the same
memory tag.
-/

namespace SingleAssignment.Builder

open Code

/-- Whether an entry is the value of an operation on two operands; the answer says whether its
operands are swapped. -/
def Entry.matches? (e : Entry) (op : Opcode) (x y : Operand) (tag : MemoryTag) : Option Bool :=
  if e.op ≠ op || (op == .load && e.tag ≠ tag) then none
  else if e.x = x && e.y = y then some false
  else if op.isCommutative && e.x = y && e.y = x then some true
  else none

namespace State

/-- The first entry of a list that is the wanted value and whose instruction is active and not among
the slots `later`. -/
def findEntry (s : State) (later : List Slot) (op : Opcode) (x y : Operand) (tag : MemoryTag)
    (entries : List Entry) : Option (InstId × Bool) :=
  entries.findSome? fun e =>
    if s.isLive e.id && !later.contains (.inst e.id) then
      (e.matches? op x y tag).map fun swapped => (e.id, swapped)
    else none

/-- The instruction that holds the value of an operation at a position of a block's timeline, and
whether its operands are swapped. -/
def find? (s : State) (b : BlockId) (op : Opcode) (x y : Operand) (tag : MemoryTag) (limit : Nat) :
    Option (InstId × Bool) :=
  match s.dominatorsOf b with
  | [] => none
  | d :: ds =>
    (s.findEntry ((s.timelineOf d).drop limit) op x y tag (s.entriesOf d)).or
      (ds.findSome? fun d' => s.findEntry [] op x y tag (s.entriesOf d'))

/-- The constant `n`, which all blocks share. -/
def const (s : State) (n : Int64) : Value × State :=
  let known := (s.entriesOf entryBlock).find? fun e =>
    e.op == .const && e.x == .literal n && s.isLive e.id
  match known with
  | some e => (⟨e.id, .immediate n e.id⟩, s)
  | none =>
    let (id, s) := s.place entryBlock { op := .const, x := .literal n } (s.endOf entryBlock)
    (⟨id, .immediate n id⟩,
      s.record entryBlock { op := .const, id := id, x := .literal n, y := .none })

/-- Places an instruction that takes part in value numbering and records its value. -/
def placeNumbered (s : State) (b : BlockId) (d : Draft) (tag : MemoryTag) (pos : Nat) :
    InstId × State :=
  let (id, s) := s.place b d pos
  let s := s.record b { op := d.op, id := id, x := d.x, y := d.y, tag := tag }
  (id, if d.op == .load then s.modifyInst id fun i => { i with memory := some tag } else s)

/-- The value of a numbered operation at a position of a block's timeline: the one found there, or a
new instruction. The answer says whether one was found with its operands swapped. -/
def number (s : State) (b : BlockId) (op : Opcode) (x y : Value) (tag : MemoryTag) (limit : Nat) :
    (Value × Bool) × State :=
  match s.find? b op x.operand y.operand tag limit with
  | some (id, swapped) => ((⟨id, .result op id x.src y.src tag⟩, swapped), s)
  | none =>
    let draft : Draft := { op := op, x := x.operand, y := y.operand, srcX := x.src, srcY := y.src }
    let (id, s) := s.placeNumbered b draft tag limit
    ((⟨id, .result op id x.src y.src tag⟩, false), s)

/-- A numbered operation at the end of a block. -/
def numberAtEnd (s : State) (b : BlockId) (op : Opcode) (x y : Value) (tag : MemoryTag) :
    Value × State :=
  let ((v, _), s) := s.number b op x y tag (s.endOf b)
  (v, s)

/-- An operation with an effect, at the end of a block. -/
def emitEffect (s : State) (b : BlockId) (op : Opcode) (x y : Value) : Value × State :=
  let draft : Draft := { op := op, x := x.operand, y := y.operand, srcX := x.src, srcY := y.src }
  let (id, s) := s.place b draft (s.endOf b)
  (⟨id, .result op id x.src y.src {}⟩, s)

/-- A new phi, after the phis and heads of its block. A phi belongs to its join and not to its
operands, so it is never shared. -/
def emitPhi (s : State) (b : BlockId) (x y : Value) : Value × State :=
  let draft : Draft := { op := .phi, x := x.operand, y := y.operand, srcX := x.src, srcY := y.src }
  let (id, s) := s.insertNew b draft (s.leadingRun b)
  (⟨id, .result .phi id .absent .absent {}⟩,
    s.record b { op := .phi, id := id, x := x.operand, y := y.operand })

end State

/-- The constant `n`. -/
def const (n : Int64) : Build Value :=
  Build.step (·.const n)

/-- The value of an operation in a block, and whether it was found with its operands swapped. -/
def emit (b : BlockId) (op : Opcode) (x y : Value) : Build (Value × Bool) := do
  let _ ← Build.block b
  match op with
  | .const =>
    match x.src with
    | .immediate n _ => return (← const n, false)
    | _ => throw .literalNeeded
  | .phi => return (← Build.step (·.emitPhi b x y), false)
  | op =>
    if op.isNumbered then Build.step fun s => s.number b op x y {} (s.endOf b)
    else return (← Build.step (·.emitEffect b op x y), false)

end SingleAssignment.Builder
