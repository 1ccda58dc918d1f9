import SingleAssignment.Builder.Error

/-!
# Branches

A branch is made before the block it goes to has any instruction. Its target is deferred, and
resolving points it at the first active instruction of the target; a target without one gets an
empty instruction, which the next instruction placed there replaces. Every branch is resolved again
each time, so that it follows instructions that were put in front or retired.
-/

namespace SingleAssignment.Builder

open Code

namespace State

/-- The first active instruction of a block. -/
def firstActive? (s : State) (b : BlockId) : Option InstId :=
  ((s.timelineOf b).filterMap Slot.inst?).find? s.isLive

/-- The instruction that a branch to a block goes to. -/
def entryPoint (s : State) (b : BlockId) : InstId × State :=
  match s.firstActive? b with
  | some id => (id, s)
  | none =>
    let (id, s) := s.place b { op := .empty } (s.endOf b)
    (id, s.modifyBlock b fun blk => { blk with placeholder := some id })

/-- Points one deferred branch at its target. -/
def resolveBranch (s : State) (d : Deferral) : State :=
  let (first, s) := s.entryPoint d.target
  let s := s.modifyInst d.inst (·.withSlot d.side (.inst first))
  s.report (.branchResolved d.inst d.side d.target first)

/-- Points every deferred branch at its target. -/
def resolveBranches (s : State) : State :=
  s.deferrals.toList.foldl resolveBranch s

/-- The branches whose target is still open, in the order they were deferred. -/
def pending (s : State) : List InstId :=
  s.deferrals.toList.filterMap fun d =>
    if (s.inst? d.inst).any fun i => (i.slot d.side).isPending then some d.inst else none

end State

/-- Makes a slot of a branch wait for a block. -/
def deferBranch (id : InstId) (slot : Int) (target : BlockId) : Build Unit := do
  let i ← Build.instruction id
  if !i.op.isBranch then throw (.notBranch id i.op)
  match Side.ofIndex? slot with
  | none => throw (.noSlot slot)
  | some side =>
    let _ ← Build.block target
    modify fun s =>
      let s := s.modifyInst id (·.withSlot side (.pending target))
      { s with deferrals := s.deferrals.push ⟨id, side, target⟩ }

/-- Points every deferred branch at its target. -/
def resolveBranches : Build Unit :=
  modify (·.resolveBranches)

end SingleAssignment.Builder
