import SingleAssignment.Builder.State

/-!
# Errors of a builder

A call of a builder fails for one of these causes. `Error.kind` sorts them and `Error.message` gives
their text.
-/

namespace SingleAssignment.Builder

open Code

/-- Sorts of errors. -/
inductive ErrorKind where
  | invalidArgument
  | notFound
  | alreadyExists
  | failedPrecondition
  | other
  deriving DecidableEq, Repr, Inhabited

/-- What an error of this sort is called. -/
def ErrorKind.text? : ErrorKind → Option String
  | invalidArgument => some "invalid argument"
  | notFound => some "not found"
  | alreadyExists => some "already exists"
  | failedPrecondition => some "failed precondition"
  | other => none

/-- What the text of an error of this sort ends with. -/
def ErrorKind.suffix (k : ErrorKind) : String :=
  match k.text? with
  | some text => ": " ++ text
  | none => ""

/-- What is done with a variable or an array. -/
inductive Access where
  | assign
  | lookup
  | element
  deriving DecidableEq, Repr, Inhabited

/-- The verb of an access. -/
def Access.verb : Access → String
  | assign => "assign"
  | lookup => "lookup"
  | element => "access"

/-- Why a call of a builder failed. -/
inductive Error where
  | noBlock (id : BlockId)
  | noInstruction (id : InstId)
  /-- Block 0 holds no variables. -/
  | entryBlock (access : Access) (name : String)
  | literalNeeded
  /-- The assigned value is no instruction. -/
  | noSuchValue (name : String) (id : InstId)
  | noVisibleVersion (name : String) (block : BlockId)
  | noVersion (name : String) (number : Int) (block : BlockId)
  | noOpenJoin
  | otherJoinOpen (kind : JoinKind)
  | notIfJoin (block : BlockId)
  | ifJoinParents (block : BlockId) (count : Nat)
  | notJoin (block : BlockId)
  | notLoopHeader (block : BlockId)
  | loopHeaderParents (block : BlockId) (count : Nat)
  | noDominators
  | notBranch (id : InstId) (op : Opcode)
  | noSlot (number : Int)
  | arrayWithoutDimensions (name : String)
  | arrayDimension (name : String) (dim : Int64)
  | arrayDeclared (name : String)
  | noArray (name : String)
  | indexCount (name : String) (dims given : Nat)
  | joinsOpen (count : Nat)
  deriving DecidableEq, Repr, Inhabited

namespace Error

/-- The sort of an error. -/
def kind : Error → ErrorKind
  | noBlock _ | noInstruction _ | literalNeeded | noSuchValue .. | notIfJoin _ | notJoin _
  | notLoopHeader _ | noDominators | notBranch .. | noSlot _ | arrayWithoutDimensions _
  | arrayDimension .. | indexCount .. => .invalidArgument
  | noVisibleVersion .. | noVersion .. | noArray _ => .notFound
  | arrayDeclared _ => .alreadyExists
  | entryBlock .. | noOpenJoin | otherJoinOpen _ | ifJoinParents .. | loopHeaderParents .. =>
    .failedPrecondition
  | joinsOpen _ => .other

/-- What is wrong, without the sort. -/
def detail : Error → String
  | noBlock id => s!"block {id} does not exist"
  | noInstruction id => s!"instruction {id} does not exist"
  | entryBlock access name =>
    s!"{access.verb} {name}: variables cannot live in the entry block"
  | literalNeeded => "const needs a literal operand"
  | noSuchValue name id => s!"assign {name}: instruction {id} does not exist"
  | noVisibleVersion name block => s!"{name} has no version visible in block {block}"
  | noVersion name number block => s!"{name} has no version {number} visible in block {block}"
  | noOpenJoin => "no open join context"
  | otherJoinOpen kind => s!"innermost join context is {kind.name}"
  | notIfJoin block => s!"block {block} is not an if join"
  | ifJoinParents block count => s!"if join {block} has {count} parents"
  | notJoin block => s!"block {block} is not a join"
  | notLoopHeader block => s!"block {block} is not a loop header"
  | loopHeaderParents block count => s!"loop header {block} has {count} parents"
  | noDominators => "new block needs a dominator list"
  | notBranch id op => s!"instruction {id} ({op.name}) is not a branch"
  | noSlot number => s!"branch slot {number}"
  | arrayWithoutDimensions name => s!"array {name} has no dimensions"
  | arrayDimension name dim => s!"array {name} has dimension {dim}"
  | arrayDeclared name => s!"array {name}"
  | noArray name => s!"array {name}"
  | indexCount name dims given => s!"array {name} has {dims} dimensions, got {given} indices"
  | joinsOpen count => s!"{count} join contexts still open"

/-- The text of an error. -/
def message (e : Error) : String :=
  e.detail ++ e.kind.suffix

end Error

/-- A call of a builder: it changes the state and returns a result, or fails. -/
abbrev Build := EStateM Error State

namespace Build

/-- A step that cannot fail. -/
def step {α : Type} (f : State → α × State) : Build α :=
  modifyGet f

/-- The block that an id names. -/
def block (id : BlockId) : Build Block := do
  match (← get).block? id with
  | some b => return b
  | none => throw (.noBlock id)

/-- The instruction that an id names. -/
def instruction (id : InstId) : Build Instruction := do
  match (← get).inst? id with
  | some i => return i
  | none => throw (.noInstruction id)

end Build

end SingleAssignment.Builder
