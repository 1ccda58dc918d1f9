import SingleAssignment.Lowering.Report
import SingleAssignment.Program.Basic

/-!
# Lowering

Lowering walks a syntax tree once and calls the builder. An expression yields a value in the current
block; a condition is a comparison and the branch that is taken when the relation does not hold; an
`if` and a loop open a join, lower their parts into new blocks and close the join again.
-/

namespace SingleAssignment.Lowering

open Code Builder Source

/-- The state of lowering: the builder and the block that code is added to. -/
structure Walk where
  builder : State
  current : BlockId := startBlock
  deriving Inhabited

/-- A step of lowering. -/
abbrev Lower := EStateM Report Walk

/-- A step of lowering that reports the site it was taken from when it fails. -/
def within {α : Type} (site : Site) (act : Lower α) : Lower α :=
  fun w =>
    match act w with
    | .ok a w => .ok a w
    | .error r w => .error (r.passing site) w

/-- A step of lowering that reports the position of an access when it fails. -/
def located {α : Type} (pos : Position) (site : Site) (act : Lower α) : Lower α :=
  fun w =>
    match act w with
    | .ok a w => .ok a w
    | .error r w => .error (r.located pos site) w

/-- A call of the builder; `trail` gives the sites inside it where an error arises. -/
def callBuilder {α : Type} (trail : Builder.Error → List Site) (act : Build α) : Lower α :=
  fun w =>
    match act w.builder with
    | .ok a s => .ok a { w with builder := s }
    | .error e s => .error { fault := .builder e, trail := trail e } { w with builder := s }

/-- A call of the builder that the rules of lowering never make fail. -/
def build {α : Type} (act : Build α) : Lower α :=
  callBuilder (fun _ => []) act

/-- The block that code is added to. -/
def current : Lower BlockId :=
  return (← get).current

/-- Adds code to another block from now on. -/
def continueIn (b : BlockId) : Lower Unit :=
  modify fun w => { w with current := b }

/-! ## Expressions -/

/-- The operation of an operator; an operator outside the language asks for a constant. -/
def operation : Operator → Opcode
  | .add => .add
  | .sub => .sub
  | .mul => .mul
  | .div => .div
  | .other _ => .const

/-- The branch that is taken when a relation does not hold; a relation outside the language asks for
a constant. -/
def negated : Comparison → Opcode
  | .equal => .bne
  | .notEqual => .beq
  | .less => .bge
  | .lessEqual => .bgt
  | .greater => .ble
  | .greaterEqual => .blt
  | .other _ => .const

/-- An operation in the current block. -/
def emitHere (op : Opcode) (x y : Value) : Lower Value := do
  let b ← current
  let (v, _) ← callBuilder (fun _ => [.literalOperand]) (emit b op x y)
  return v

/-- The sites inside an element access where an error arises. -/
def accessTrail (access address : Site) : Builder.Error → List Site
  | .noArray _ => [.arrayTable, .arrayAccess, access]
  | .indexCount .. => [.elementAddress, address]
  | _ => []

/-- What names can be used without indices. -/
structure Scope where
  strict : Bool
  declared : List String

/-- A name used without indices is no array, and declared if it has to be. -/
def checkScalar (scope : Scope) (name : String) (pos : Position) : Lower Unit := do
  if ((← get).builder.array? name).isSome then
    throw { fault := .arrayAsScalar pos name, trail := [.arrayAsScalar] }
  if scope.strict && !scope.declared.contains name then
    throw { fault := .undeclared pos name, trail := [.undeclaredScalar] }

/-- A call of a predefined function; `argument` lowers its first argument. -/
def lowerCall (fn : Builtin) (pos : Position) (argument : Lower Value) : Lower Value :=
  match fn with
  | .inputNum => emitHere .read {} {}
  | .outputNum => do
    let v ← argument
    emitHere .write v {}
  | .outputNewLine => emitHere .writeNL {} {}
  | .other _ => throw { fault := .unknownFunction pos fn, trail := [.unknownFunction] }

mutual

/-- The value of an expression. -/
def lowerExpr (scope : Scope) : Expr → Lower Value
  | .num n => build (const n)
  | .element name [] pos => do
    within .readName (checkScalar scope name pos)
    build (lookup (← current) name)
  | .element name (e :: es) pos => do
    let indices ← within .elementIndices (lowerIndices scope (e :: es))
    let b ← current
    located pos .elementPosition <| within .loading <|
      callBuilder (accessTrail .loadAccess .loadAddress) (loadElement b name indices)
  | .binary op left right => do
    let x ← within .leftOperand (lowerExpr scope left)
    let y ← within .rightOperand (lowerExpr scope right)
    within .operation (emitHere (operation op) x y)
  | .call fn args pos => within .callExpression (lowerCall fn pos (lowerArgument scope args))
  | .hole => throw { fault := .expressionHole, trail := [.expressionHole] }

/-- The values of indices, from left to right. -/
def lowerIndices (scope : Scope) : List Expr → Lower (List Value)
  | [] => return []
  | e :: es => do
    let v ← within .index (lowerExpr scope e)
    let vs ← lowerIndices scope es
    return v :: vs

/-- The value of the first argument of a call. -/
def lowerArgument (scope : Scope) : List Expr → Lower Value
  | [] => throw { fault := .expressionHole, trail := [.expressionHole] }
  | e :: _ => within .argument (lowerExpr scope e)

end

/-- The comparison of a condition and the branch that is taken when it does not hold. Where the
branch goes is decided later. -/
def lowerRelation (scope : Scope) (r : Relation) : Lower InstId := do
  let x ← within .leftComparand (lowerExpr scope r.left)
  let y ← within .rightComparand (lowerExpr scope r.right)
  let c ← emitHere .cmp x y
  let br ← within .conditionBranch (emitHere (negated r.op) c {})
  return br.id

/-! ## Statements -/

/-- Assigns a value to a variable or stores it in an array. -/
def lowerAssign (scope : Scope) (d : Designator) (v : Value) : Lower Unit :=
  match d.indices with
  | [] => do
    within .targetName (checkScalar scope d.name d.pos)
    discard <| build (assign (← current) d.name v)
  | e :: es => do
    let indices ← within .targetIndices (lowerIndices scope (e :: es))
    let b ← current
    located d.pos .storing <| within .storing <|
      callBuilder (accessTrail .storeAccess .storeAddress) (storeElement b d.name indices v)

/-- Makes the join of an `if`, lets a branch go there, merges the variables and goes on there. -/
def closeIf (join : BlockDraft) (branch : InstId) (slot : Int) : Lower Unit := do
  let j ← build (newBlock join)
  build (deferBranch branch slot j)
  build (reconcileIf j)
  continueIn j
  build resolveBranches

/-- An `if` whose parts are being lowered: its branch, and the block in front of it with its
dominators. -/
structure IfFrame where
  branch : InstId
  pre : BlockId
  dominators : List BlockId

/-- Lowers the condition of an `if` and goes on in its first part. -/
def openIf (scope : Scope) (kind : JoinKind) (cond : Relation) : Lower IfFrame := do
  let branch ← within .ifCondition (lowerRelation scope cond)
  let pre ← current
  let doms ← build (dominators pre)
  build (openJoin kind)
  let thenTop ← build (newBlock { kind := .thenPart, dominators := doms, parents := [pre] })
  continueIn thenTop
  return ⟨branch, pre, doms⟩

/-- Goes on behind an `if` without `else`. -/
def closeIfThen (f : IfFrame) : Lower Unit := do
  let thenBottom ← current
  closeIf
    { kind := .join, join := .ifThen, dominators := f.dominators, parents := [thenBottom, f.pre] }
    f.branch 1

/-- An `if` without `else`; `thenPart` lowers its statements. -/
def lowerIfThen (scope : Scope) (cond : Relation) (thenPart : Lower Unit) : Lower Unit := do
  let f ← openIf scope .ifThen cond
  within .thenPart thenPart
  closeIfThen f

/-- An `if` whose second part is being lowered: the jump behind the first part and the block it is
in, and the dominators of the block in front of the `if`. -/
structure ElseFrame where
  bra : InstId
  thenBottom : BlockId
  dominators : List BlockId

/-- Ends the first part of an `if` and goes on in the second. -/
def openElse (f : IfFrame) : Lower ElseFrame := do
  let thenBottom ← current
  let bra ← emitHere .bra {} {}
  let elseTop ← build
    (newBlock { kind := .elsePart, dominators := f.dominators, parents := [f.pre] })
  build (deferBranch f.branch 1 elseTop)
  continueIn elseTop
  return ⟨bra.id, thenBottom, f.dominators⟩

/-- Goes on behind an `if` with `else`. -/
def closeIfElse (f : ElseFrame) : Lower Unit := do
  let elseBottom ← current
  closeIf
    { kind := .join, join := .ifElse, dominators := f.dominators,
      parents := [f.thenBottom, elseBottom] }
    f.bra 0

/-- An `if` with `else`; `thenPart` and `elsePart` lower its statements. -/
def lowerIfElse (scope : Scope) (cond : Relation) (thenPart elsePart : Lower Unit) :
    Lower Unit := do
  let f ← openIf scope .ifElse cond
  within .thenPart thenPart
  let g ← openElse f
  within .elsePart elsePart
  closeIfElse g

/-- A loop whose body is being lowered: its header and the branch that leaves it. -/
structure LoopFrame where
  header : BlockId
  branch : InstId

/-- Makes the header of a loop and goes on there. -/
def openHeader : Lower BlockId := do
  let pre ← current
  let doms ← build (dominators pre)
  build (openJoin .loop)
  let header ← build
    (newBlock { kind := .loopHeader, join := .loop, dominators := doms, parents := [pre] })
  continueIn header
  return header

/-- Makes the first block of the body of a loop and goes on there. -/
def openBody (header : BlockId) : Lower Unit := do
  let doms ← build (dominators header)
  let bodyTop ← build (newBlock { kind := .loopBody, dominators := doms, parents := [header] })
  continueIn bodyTop

/-- Makes the header of a loop, lowers its condition there and goes on in its body. -/
def openLoop (scope : Scope) (cond : Relation) : Lower LoopFrame := do
  let header ← openHeader
  let branch ← within .loopCondition (lowerRelation scope cond)
  openBody header
  return ⟨header, branch⟩

/-- Ends the body of a loop with the jump back to the header. The answer is its last block. -/
def endBody (f : LoopFrame) : Lower BlockId := do
  let bottom ← current
  let bra ← emitHere .bra {} {}
  build (deferBranch bra.id 0 f.header)
  return bottom

/-- Repairs a loop whose body is done and goes on behind it. -/
def closeLoop (f : LoopFrame) (bottom : BlockId) : Lower Unit := do
  let exit ← build (reconcileLoop f.header bottom f.branch)
  continueIn exit
  build resolveBranches

/-- A loop; `body` lowers its statements. -/
def lowerLoop (scope : Scope) (cond : Relation) (body : Lower Unit) : Lower Unit := do
  let f ← openLoop scope cond
  within .loopBody body
  let bottom ← endBody f
  closeLoop f bottom

mutual

/-- Lowers a statement. -/
def lowerStmt (scope : Scope) : Stmt → Lower Unit
  | .assign target value _ => do
    let v ← within .assignedValue (lowerExpr scope value)
    within .assignment (lowerAssign scope target v)
  | .call fn args pos =>
    discard <| within .callStatement (lowerCall fn pos (lowerArgument scope args))
  | .ifThen cond thenPart _ =>
    within .ifStatement (lowerIfThen scope cond (lowerStmts scope thenPart))
  | .ifElse cond thenPart elsePart _ =>
    within .ifStatement
      (lowerIfElse scope cond (lowerStmts scope thenPart) (lowerStmts scope elsePart))
  | .loop cond body _ => within .loopStatement (lowerLoop scope cond (lowerStmts scope body))
  | .hole => throw { fault := .statementHole, trail := [.statementHole] }

/-- Lowers statements in order. -/
def lowerStmts (scope : Scope) : List Stmt → Lower Unit
  | [] => return
  | s :: ss => do
    within .sequence (lowerStmt scope s)
    lowerStmts scope ss

end

/-! ## Programs -/

/-- What lowering reports while it works. -/
inductive Event where
  | started (vars arrays statements : Nat)
  | builder (e : Builder.Event)
  | failed (r : Report)
  deriving DecidableEq, Repr, Inhabited

/-- Declares arrays in order. -/
def declareArrays : List ArrayDecl → Lower Unit
  | [] => return
  | d :: ds => do
    located d.pos .program (discard <| build (declareArray d.name d.dims))
    declareArrays ds

/-- Ends the program. -/
def endProgram : Lower Extent := do
  discard <| emitHere .halt {} {}
  build finish

/-- Lowers a computation: the finished program or the report of a failure, and what was reported on
the way. A body that cannot be lowered is reported there too. -/
def run (settings : Settings) (c : Computation) : Except Report Program × List Event :=
  let scope : Scope := ⟨settings.strict, c.vars.map (·.name)⟩
  let started := Event.started c.vars.length c.arrays.length c.body.length
  let events (w : Walk) := started :: w.builder.log.toList.map Event.builder
  match declareArrays c.arrays { builder := .new settings } with
  | .error r w => (.error r, events w)
  | .ok _ w =>
    match within .program (lowerStmts scope c.body) w with
    | .error r w => (.error r, events w ++ [.failed r])
    | .ok _ w =>
      match endProgram w with
      | .error r w => (.error r, events w)
      | .ok e w => (.ok (w.builder.program e), events w)

/-- The program of a computation. -/
def lower (settings : Settings) (c : Computation) : Except Report Program :=
  (run settings c).1

end SingleAssignment.Lowering
