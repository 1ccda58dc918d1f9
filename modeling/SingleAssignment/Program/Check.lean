import SingleAssignment.Program.Basic

/-!
# Checking a program

`Program.check` looks for the first violation of what a finished program promises: edges are known
at both ends, a join has two parents, phis come first and stand in joins, constants stand in block
0, no branch is open, and every operand is an active instruction of a dominating block that comes
before its use.
-/

namespace SingleAssignment

open Code Builder

/-- What is wrong with a program. -/
inductive Violation where
  | dominatorsStart (block : BlockId)
  | unmatchedEdge (block child : BlockId)
  | joinParents (block : BlockId) (count : Nat)
  | wrongOwner (inst : InstId) (block owner : BlockId)
  | latePhi (inst : InstId) (block : BlockId)
  | strayPhi (inst : InstId) (block : BlockId)
  | strayConst (inst : InstId)
  | openBranch (inst : InstId) (target : Operand)
  | retiredOperand (inst operand : InstId)
  | notDominating (inst operand : InstId) (home : BlockId)
  | usedBefore (inst operand : InstId) (home : BlockId)
  | missingOperand (inst : InstId)
  | missingTarget (inst : InstId)
  deriving DecidableEq, Repr, Inhabited

/-- The text of a violation. -/
def Violation.message : Violation → String
  | dominatorsStart b => s!"block {b}: dominator list must start with itself"
  | unmatchedEdge b c => s!"block {b}: edge to {c} has no matching parent entry"
  | joinParents b n => s!"join {b} has {n} parents"
  | wrongOwner i b o => s!"instruction {i} is listed in block {b} but owned by {o}"
  | latePhi i b => s!"phi {i} follows a non-phi in block {b}"
  | strayPhi i b => s!"phi {i} in block {b} which is not a join"
  | strayConst i => s!"const {i} outside the entry block"
  | openBranch i t => s!"branch {i} still targets {t.text}"
  | retiredOperand i o => s!"instruction {i} refers to retired instruction {o}"
  | notDominating i o b =>
    s!"instruction {i} uses {o} from block {b} which does not dominate it"
  | usedBefore i o b => s!"instruction {i} uses {o} before its definition in block {b}"
  | missingOperand i => s!"branch {i} is missing an operand"
  | missingTarget i => s!"branch {i} has no target"

namespace Program

/-- The violation `v`, unless `holds`. -/
def require (holds : Bool) (v : Violation) : Except Violation Unit :=
  if holds then .ok () else .error v

/-- Checks the instructions of a block; `body` says that one that is no phi came before. -/
def checkOrder (b : Block) : Bool → List Instruction → Except Violation Unit
  | _, [] => .ok ()
  | body, i :: rest => do
    require (i.block == b.id) (.wrongOwner i.id b.id i.block)
    if i.op = .phi then
      require (!body) (.latePhi i.id b.id)
      require (b.join != .none) (.strayPhi i.id b.id)
      checkOrder b body rest
    else
      require (i.op != .const || b.id == entryBlock) (.strayConst i.id)
      checkOrder b true rest

/-- Checks the lists and the instructions of a block. -/
def checkBlock (p : Program) (b : Block) : Except Violation Unit := do
  require (b.dominators.head? == some b.id) (.dominatorsStart b.id)
  b.children.forM fun c =>
    require ((p.block? c).any (·.parents.contains b.id)) (.unmatchedEdge b.id c)
  require (b.join == .none || b.parents.length == 2) (.joinParents b.id b.parents.length)
  checkOrder b false (p.order b)

/-- The block that lists an active instruction, and the place it has there. -/
def home? (p : Program) (id : InstId) : Option (BlockId × Nat) :=
  p.blocks.toList.reverse.findSome? fun b =>
    ((p.order b).findIdx? (·.id == id)).map fun k => (b.id, k)

/-- Checks an operand of an active instruction. -/
def checkOperand (p : Program) (i : Instruction) (side : Side) : Except Violation Unit := do
  let o := i.slot side
  require (!o.isPending) (.openBranch i.id o)
  match o.inst? with
  | none => return
  | some id =>
    require ((p.inst? id).any (·.active)) (.retiredOperand i.id id)
    if i.isTarget side || i.op == .phi then return
    let doms := ((p.block? i.block).map (·.dominators)).getD []
    match p.home? id with
    | none => throw (.notDominating i.id id 0)
    | some (home, k) =>
      require (doms.contains home) (.notDominating i.id id home)
      let own := ((p.home? i.id).map (·.2)).getD 0
      require (home != i.block || k < own) (.usedBefore i.id id home)

/-- Checks an instruction; a retired one is free. -/
def checkInst (p : Program) (i : Instruction) : Except Violation Unit := do
  if !i.active then return
  p.checkOperand i .x
  p.checkOperand i .y
  require (!(i.op.isConditional && (i.x.isNone || i.y.isNone))) (.missingOperand i.id)
  require (!(i.op == .bra && i.x.isNone)) (.missingTarget i.id)

/-- The first violation of a program, blocks before instructions. -/
def check (p : Program) : Except Violation Unit := do
  p.blocks.toList.forM p.checkBlock
  p.insts.toList.forM p.checkInst

end Program

end SingleAssignment
