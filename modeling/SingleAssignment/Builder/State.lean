import SingleAssignment.Builder.Names
import SingleAssignment.Code.BlockKind
import SingleAssignment.Code.Instruction

/-!
# The state of a builder

A builder owns three arenas that only grow: instructions, blocks and versions of variables. Block 0
holds the constants and no variables; block 1 is the first that holds code.

The timeline of a block lists its instructions and, between them, a mark for each version that is
defined there. Which version of a variable is visible at an instruction is a question of their order
on the timeline, and stays so when an instruction is inserted later. A table of the block lists the
same versions by variable, each list in the order of the timeline. The dominators of a block are
listed nearest first and start with the block itself.
-/

namespace SingleAssignment.Builder

open Code

/-- Names a version by its place in the arena of versions. -/
abbrev VersionId := Nat

/-- One version of a variable, defined in a block. -/
structure Version where
  var : String
  number : Int
  inst : InstId
  block : BlockId
  src : Provenance := .absent
  /-- The instructions its value was computed by. -/
  history : List InstId := []
  /-- A head is the value of a variable at the top of a join, ahead of everything else there. -/
  isHead : Bool := false
  /-- The phi last made for a head; it stays known after it is retired and may be revived. -/
  phi : Option InstId := none
  deriving DecidableEq, Repr, Inhabited

/-- Names the version in messages and back references. -/
def Version.ref (v : Version) : VersionRef :=
  ⟨v.var, v.block, v.number⟩

/-- A place on the timeline of a block. -/
inductive Slot where
  | inst (id : InstId)
  | mark (version : VersionId)
  deriving DecidableEq, Repr, Inhabited

/-- The instruction in a slot. -/
def Slot.inst? : Slot → Option InstId
  | inst id => some id
  | mark _ => none

/-- The version that a slot marks. -/
def Slot.mark? : Slot → Option VersionId
  | inst _ => none
  | mark v => some v

/-- Records that an instruction holds the value of an operation on two operands. -/
structure Entry where
  op : Opcode
  id : InstId
  x : Operand
  y : Operand
  tag : MemoryTag := {}
  deriving DecidableEq, Repr, Inhabited

/-- The versions that are defined in a block, by variable. -/
abbrev VersionTable := List (String × List VersionId)

namespace VersionTable

/-- The versions of a variable, in order. -/
def get (t : VersionTable) (name : String) : List VersionId :=
  (t.lookup name).getD []

/-- The table with other versions of a variable. -/
def set : VersionTable → String → List VersionId → VersionTable
  | [], name, vs => [(name, vs)]
  | (key, old) :: t, name, vs =>
    if key == name then (name, vs) :: t else (key, old) :: set t name vs

end VersionTable

/-- A basic block. -/
structure Block where
  id : BlockId
  kind : BlockKind
  join : JoinKind := .none
  parents : List BlockId := []
  children : List BlockId := []
  dominators : List BlockId
  timeline : List Slot := []
  /-- The versions that the timeline marks, by variable. -/
  table : VersionTable := []
  /-- The values known here, newest first. -/
  entries : List Entry := []
  /-- The variables that were merged at this join. -/
  joinVars : Names := ∅
  /-- The empty instruction that a branch goes to as long as the block has no other. -/
  placeholder : Option InstId := none
  deriving DecidableEq, Repr, Inhabited

namespace Block

/-- The instructions of the block in order, retired ones included. -/
def order (b : Block) : List InstId :=
  b.timeline.filterMap Slot.inst?

/-- The block with one more parent. -/
def addParent (b : Block) (p : BlockId) : Block :=
  if b.parents.contains p then b else { b with parents := b.parents ++ [p] }

/-- The block with one more child. -/
def addChild (b : Block) (c : BlockId) : Block :=
  if b.children.contains c then b else { b with children := b.children ++ [c] }

/-- Puts a slot at a position of the timeline, or at its end if there is no such position. -/
def insertSlot (b : Block) (pos : Nat) (slot : Slot) : Block :=
  { b with timeline := b.timeline.take pos ++ slot :: b.timeline.drop pos }

/-- Takes the slot at a position off the timeline. -/
def removeSlot (b : Block) (pos : Nat) : Block :=
  { b with timeline := b.timeline.eraseIdx pos }

/-- The position of a version's mark on the timeline. -/
def markAt? (b : Block) (v : VersionId) : Option Nat :=
  b.timeline.findIdx? (· == .mark v)

/-- Marks a version of a variable at a position of the timeline. In the table it goes ahead of the
first version of the variable whose mark is then behind its own. -/
def addVersion (b : Block) (pos : Nat) (name : String) (v : VersionId) : Block :=
  let b := b.insertSlot pos (.mark v)
  let vs := b.table.get name
  let isEarlier w := !(b.markAt? w).any (pos < ·)
  { b with table := b.table.set name (vs.takeWhile isEarlier ++ v :: vs.dropWhile isEarlier) }

/-- Records a value. -/
def record (b : Block) (e : Entry) : Block :=
  { b with entries := e :: b.entries }

end Block

/-- A value in use: the instruction that holds it and where it came from. -/
structure Value where
  id : InstId := 0
  src : Provenance := .absent
  deriving DecidableEq, Repr, Inhabited

namespace Value

/-- A literal that no instruction holds yet. -/
def literal (n : Int64) : Value :=
  ⟨0, .immediate n 0⟩

/-- Whether there is no value. -/
def isZero (v : Value) : Bool :=
  v.id == 0 && !v.src.isPresent

/-- The operand that refers to the value. -/
def operand (v : Value) : Operand :=
  if v.id = 0 then .none else .inst v.id

end Value

/-- An `if` or a loop that is still open, and the variables assigned in it so far. -/
structure JoinContext where
  kind : JoinKind
  touched : Names := ∅
  deriving DecidableEq, Repr, Inhabited

/-- A slot of a branch and the block it is to go to. -/
structure Deferral where
  inst : InstId
  side : Side
  target : BlockId
  deriving DecidableEq, Repr, Inhabited

/-- An array: elements in rows, the last index running fastest, from a fixed address on. -/
structure ArrayInfo where
  name : String
  dims : List Int64
  strides : List Int64
  base : Int64
  baseValue : Value
  strideValues : List Value
  /-- The number of times its memory may have changed. -/
  epoch : Int := 0
  deriving DecidableEq, Repr, Inhabited

/-- The number of elements. -/
def ArrayInfo.size (a : ArrayInfo) : Int64 :=
  a.dims.foldl (· * ·) 1

/-- Why a variable was given the value zero. -/
inductive ZeroCause where
  | readFirst
  | partialJoin
  deriving DecidableEq, Repr, Inhabited

/-- The text of a cause. -/
def ZeroCause.message : ZeroCause → String
  | readFirst => "read before assignment, using 0"
  | partialJoin => "not assigned on every path into a join, using 0"

/-- A warning about the program that is built. -/
structure Diagnostic where
  block : BlockId
  var : String
  cause : ZeroCause
  deriving DecidableEq, Repr, Inhabited

/-- The text of a warning. -/
def Diagnostic.text (d : Diagnostic) : String :=
  s!"BB{d.block}: {d.var}: {d.cause.message}"

/-- What a builder reports while it works. -/
inductive Event where
  | implicitZero (var : String) (block : BlockId)
  | phiPlaced (join : BlockId) (var : String) (phi x y : InstId)
  | phiRetired (join : BlockId) (var : String) (phi value : InstId)
  | repairUnsettled (header : BlockId) (rounds : Nat)
  | loopRepaired (header : BlockId) (blocks spliced rounds : Nat)
  | branchResolved (branch : InstId) (side : Side) (target : BlockId) (first : InstId)
  | finished (source : String) (blocks insts : Nat)
  deriving DecidableEq, Repr, Inhabited

/-- What a builder is told at the start. -/
structure Setup where
  /-- The size of an array element. -/
  wordSize : Int64 := 4
  /-- The address of the first array. -/
  baseAddress : Int64 := 0
  /-- The name of the source text. -/
  source : String := ""
  deriving DecidableEq, Repr, Inhabited

/-- What is chosen for a program. -/
structure Settings extends Setup where
  /-- Whether a variable has to be declared. -/
  strict : Bool := false
  deriving DecidableEq, Repr, Inhabited

/-- Sets the size of an array element; a size that is not positive changes nothing. -/
def Settings.withWordSize (s : Settings) (n : Int64) : Settings :=
  if 0 < n then { s with wordSize := n } else s

/-- Everything a builder knows. -/
structure State where
  settings : Setup
  insts : Array Instruction := #[]
  blocks : Array Block := #[]
  versions : Array Version := #[]
  /-- The open joins, innermost first. -/
  contexts : List JoinContext := []
  deferrals : Array Deferral := #[]
  arrays : List ArrayInfo := []
  nextAddress : Int64
  diagnostics : Array Diagnostic := #[]
  log : Array Event := #[]
  deriving Inhabited

/-- The block of the constants. -/
def entryBlock : BlockId := 0

/-- The first block with code. -/
def startBlock : BlockId := 1

namespace State

/-- The state at the start: the block of the constants and the first block with code. -/
def new (settings : Settings) : State where
  settings := settings.toSetup
  nextAddress := settings.baseAddress
  blocks := #[
    { id := entryBlock, kind := .entry, children := [startBlock], dominators := [entryBlock] },
    { id := startBlock, kind := .main, parents := [entryBlock],
      dominators := [startBlock, entryBlock] }]

/-! ## Looking up -/

/-- The instruction that an id names. -/
def inst? (s : State) (id : InstId) : Option Instruction :=
  if 0 < id then s.insts[(id - 1).toNat]? else none

/-- The block that an id names. -/
def block? (s : State) (id : BlockId) : Option Block :=
  if 0 ≤ id then s.blocks[id.toNat]? else none

/-- Whether an id names an active instruction. -/
def isLive (s : State) (id : InstId) : Bool :=
  (s.inst? id).any (·.active)

/-- The timeline of a block. -/
def timelineOf (s : State) (b : BlockId) : List Slot :=
  ((s.block? b).map (·.timeline)).getD []

/-- The versions that are defined in a block, by variable. -/
def tableOf (s : State) (b : BlockId) : VersionTable :=
  ((s.block? b).map (·.table)).getD []

/-- The dominators of a block, itself first. -/
def dominatorsOf (s : State) (b : BlockId) : List BlockId :=
  ((s.block? b).map (·.dominators)).getD []

/-- The values known in a block, newest first. -/
def entriesOf (s : State) (b : BlockId) : List Entry :=
  ((s.block? b).map (·.entries)).getD []

/-- The length of a timeline: the position at its end. -/
def endOf (s : State) (b : BlockId) : Nat :=
  (s.timelineOf b).length

/-- The array with a name. -/
def array? (s : State) (name : String) : Option ArrayInfo :=
  s.arrays.find? (·.name == name)

/-! ## Changing one thing -/

/-- Changes an instruction. -/
def modifyInst (s : State) (id : InstId) (f : Instruction → Instruction) : State :=
  if 0 < id then { s with insts := s.insts.modify (id - 1).toNat f } else s

/-- Changes a block. -/
def modifyBlock (s : State) (id : BlockId) (f : Block → Block) : State :=
  if 0 ≤ id then { s with blocks := s.blocks.modify id.toNat f } else s

/-- Changes a version. -/
def modifyVersion (s : State) (v : VersionId) (f : Version → Version) : State :=
  { s with versions := s.versions.modify v f }

/-- Reports an event. -/
def report (s : State) (e : Event) : State :=
  { s with log := s.log.push e }

/-! ## Placing instructions -/

/-- An instruction that has no id yet. -/
structure Draft where
  op : Opcode
  x : Operand := .none
  y : Operand := .none
  srcX : Provenance := .absent
  srcY : Provenance := .absent

/-- A new instruction of a block, in no slot yet. -/
def alloc (s : State) (b : BlockId) (d : Draft) : InstId × State :=
  let id : InstId := s.insts.size + 1
  let i : Instruction :=
    { id := id, op := d.op, x := d.x, y := d.y, block := b, srcX := d.srcX, srcY := d.srcY }
  (id, { s with insts := s.insts.push i })

/-- A new instruction at a position of a block's timeline. -/
def insertNew (s : State) (b : BlockId) (d : Draft) (pos : Nat) : InstId × State :=
  let (id, s) := s.alloc b d
  (id, s.modifyBlock b (·.insertSlot pos (.inst id)))

/-- Turns the empty instruction `id` of a block into a drafted one and moves it to a position of the
timeline. -/
def overwrite (s : State) (b : BlockId) (id : InstId) (d : Draft) (pos : Nat) : State :=
  let s := s.modifyInst id fun i =>
    { i with op := d.op, x := d.x, y := d.y, srcX := d.srcX, srcY := d.srcY, active := true }
  s.modifyBlock b fun blk =>
    match blk.timeline.findIdx? (· == .inst id) with
    | some k => (blk.removeSlot k).insertSlot (if k < pos then pos - 1 else pos) (.inst id)
    | none => blk.insertSlot pos (.inst id)

/-- Puts a drafted instruction that is no phi at a position of a block's timeline. An empty
instruction that waits there for the block's first instruction is used up instead of a new id. -/
def place (s : State) (b : BlockId) (d : Draft) (pos : Nat) : InstId × State :=
  match (s.block? b).bind (·.placeholder) with
  | none => s.insertNew b d pos
  | some p =>
    if d.op = .empty then s.insertNew b d pos
    else
      let s := s.modifyBlock b fun blk => { blk with placeholder := none }
      if (s.inst? p).any (·.op == .empty) then (p, s.overwrite b p d pos) else s.insertNew b d pos

/-- Records a value in a block. -/
def record (s : State) (b : BlockId) (e : Entry) : State :=
  s.modifyBlock b (·.record e)

/-- The length of the part of a timeline that holds phis and heads, which come first. -/
def leadingRun (s : State) (b : BlockId) : Nat :=
  ((s.timelineOf b).takeWhile fun
    | .inst id => (s.inst? id).any (·.op == .phi)
    | .mark v => (s.versions[v]?).any (·.isHead)).length

/-- The active instructions, block by block in order. -/
def active (s : State) : List Instruction :=
  s.blocks.toList.flatMap fun b => (b.order.filterMap s.inst?).filter (·.active)

end State

end SingleAssignment.Builder
