import SingleAssignment.Builder.Variable

/-!
# Joins

While an `if` or a loop is open, the variables assigned in it are collected. Where its paths meet,
each of them is merged: the head of the variable in the join becomes the common value of the two
paths, or a phi of the two values.
-/

namespace SingleAssignment.Builder

open Code

/-- What merging did: whether the join changed, and a phi that was retired with the value that took
its place. -/
structure Merged where
  changed : Bool
  retired : Option (InstId × InstId) := none

namespace State

/-- Makes the head of a variable, at the end of the heads and phis. -/
def addHead (s : State) (j : BlockId) (name : String) (inst : InstId) (src : Provenance) :
    VersionId × State :=
  let ver : Version :=
    { var := name, number := s.nextVersion j name, inst := inst, block := j, src := src,
      isHead := true }
  s.addVersion ver (s.leadingRun j)

/-- Refills the phi of a head with two values, and revives it if it was retired. -/
def refillPhi (s : State) (j : BlockId) (name : String) (head : VersionId) (phi : InstId)
    (x y : Value) : Merged × State :=
  let changed := !((s.inst? phi).any fun i =>
      i.x == x.operand && i.y == y.operand && i.active) ||
    !((s.versions[head]?).any (·.inst == phi))
  let s := s.modifyInst phi fun i =>
    { i with x := x.operand, y := y.operand, srcX := x.src, srcY := y.src, active := true }
  let s := s.modifyVersion head fun v =>
    { v with inst := phi, src := .result .phi phi .absent .absent {} }
  if changed then
    (⟨true, none⟩, (s.depend head).report (.phiPlaced j name phi x.id y.id))
  else (⟨false, none⟩, s)

/-- Gives a variable a new phi of two values. -/
def newPhi (s : State) (j : BlockId) (name : String) (head : Option VersionId) (x y : Value) :
    Merged × State :=
  let (phi, s) := s.emitPhi j x y
  let (head, s) := match head with
    | some h => (h, s)
    | none => s.addHead j name 0 .absent
  let s := s.modifyVersion head fun v =>
    { v with inst := phi.id, src := phi.src, phi := some phi.id }
  (⟨true, none⟩, (s.depend head).report (.phiPlaced j name phi.id x.id y.id))

/-- Gives a head the value that both paths have, and retires its phi. -/
def settleHead (s : State) (j : BlockId) (name : String) (head : VersionId) (x : Value) :
    Merged × State :=
  let moved := !((s.versions[head]?).any (·.inst == x.id))
  let alive := ((s.versions[head]?).bind (·.phi)).filter s.isLive
  let s := match alive with
    | some phi =>
      (s.modifyInst phi fun i => { i with active := false }).report (.phiRetired j name phi x.id)
    | none => s
  let s := s.modifyVersion head fun v => { v with inst := x.id, src := x.src }
  let changed := moved || alive.isSome
  (⟨changed, alive.map fun phi => (phi, x.id)⟩, if changed then s.depend head else s)

/-- Merges the values that reach a join on its two edges into the head of a variable. `above` is the
value that the variable has above the join, wanted only if the two values agree and there is no head
yet: the join then needs a head only if its value differs from that. -/
def merge (s : State) (j : BlockId) (name : String) (x y : Value) (above : Option InstId) :
    Merged × State :=
  match s.head? j name with
  | some head =>
    if x.id = y.id then s.settleHead j name head x
    else
      match (s.versions[head]?).bind (·.phi) with
      | some phi => s.refillPhi j name head phi x y
      | none => s.newPhi j name (some head) x y
  | none =>
    if x.id ≠ y.id then s.newPhi j name none x y
    else if above = some x.id then (⟨false, none⟩, s)
    else
      let (head, s) := s.addHead j name x.id x.src
      (⟨true, none⟩, s.depend head)

/-- The block above a join: its nearest dominator other than itself. -/
def blockAbove (s : State) (j : BlockId) : BlockId :=
  (s.dominatorsOf j).getD 1 (-1)

/-- The instruction that holds a variable at the end of a block. -/
def visibleInst? (s : State) (b : BlockId) (name : String) : Option InstId :=
  (s.visible? b name).bind fun v => (s.versions[v]?).map (·.inst)

/-- The parents of a join on its first and second edge. -/
def joinParents (s : State) (j : BlockId) : BlockId × BlockId :=
  let ps := ((s.block? j).map (·.parents)).getD []
  (ps.getD 0 0, ps.getD 1 0)

/-- Marks a variable as merged at a join. -/
def addJoinVar (s : State) (j : BlockId) (name : String) : State :=
  s.modifyBlock j fun b => { b with joinVars := b.joinVars.insert name }

/-- Merges a variable at a join from its values at the ends of the two parents. -/
def reconcile (s : State) (j : BlockId) (name : String) : State :=
  let s := s.addJoinVar j name
  let (p, q) := s.joinParents j
  let (x, s) := s.readAtEnd p name (some .partialJoin)
  let (y, s) := s.readAtEnd q name (some .partialJoin)
  (s.merge j name x y (s.visibleInst? (s.blockAbove j) name)).2

/-- Starts to collect the variables assigned in an `if` or a loop. A loop may see the stores of its
own earlier rounds, so the memory of every array may have changed. -/
def openJoin (s : State) (kind : JoinKind) : State :=
  let arrays := if kind = .loop then s.arrays.map fun a => { a with epoch := a.epoch + 1 }
    else s.arrays
  { s with arrays := arrays, contexts := { kind := kind } :: s.contexts }

end State

/-- Starts to collect the variables assigned in an `if` or a loop. -/
def openJoin (kind : JoinKind) : Build Unit :=
  modify (·.openJoin kind)

/-- Closes the innermost open construct, which has to be a loop or not as `loop` says, and returns
the variables assigned in it. -/
def closeJoin (loop : Bool) : Build Names := do
  match (← get).contexts with
  | [] => throw .noOpenJoin
  | c :: rest =>
    if (c.kind == .loop) != loop then throw (.otherJoinOpen c.kind)
    modify fun s => { s with contexts := rest }
    return c.touched

/-- Closes the innermost `if` and merges the variables assigned in it. -/
def reconcileIf (join : BlockId) : Build Unit := do
  let blk ← Build.block join
  if blk.join ≠ .ifThen && blk.join ≠ .ifElse then throw (.notIfJoin join)
  if blk.parents.length ≠ 2 then throw (.ifJoinParents join blk.parents.length)
  let touched ← closeJoin false
  touched.toList.forM fun name => modify (·.reconcile join name)

/-- Merges a variable at a join from two given values, the first for the first parent. The answer is
the value that the variable has at the top of the join. -/
def placePhi (join : BlockId) (name : String) (x y : Value) : Build InstId := do
  let blk ← Build.block join
  if blk.join = .none || blk.dominators.length < 2 then throw (.notJoin join)
  let _ ← Build.instruction x.id
  let _ ← Build.instruction y.id
  modify fun s =>
    let s := s.addJoinVar join name
    (s.merge join name x y (s.visibleInst? (s.blockAbove join) name)).2
  let s ← get
  match (s.head? join name).bind fun h => s.versions[h]? with
  | some h => return h.inst
  | none => return x.id

end SingleAssignment.Builder
