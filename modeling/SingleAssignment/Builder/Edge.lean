import SingleAssignment.Builder.Error

/-!
# Blocks and edges

A block is made with the dominators of the block it is entered from. In a program of nested
constructs these, and the block itself, are exactly the blocks on every path to it.
-/

namespace SingleAssignment.Builder

open Code

/-- A block that is to be made. -/
structure BlockDraft where
  kind : BlockKind
  join : JoinKind := .none
  dominators : List BlockId
  parents : List BlockId := []

namespace State

/-- Adds an edge; an edge that is there already is not added again. -/
def link (s : State) (parent child : BlockId) : State :=
  (s.modifyBlock parent (·.addChild child)).modifyBlock child (·.addParent parent)

/-- A new block with edges from its parents. -/
def addBlock (s : State) (d : BlockDraft) : BlockId × State :=
  let id : BlockId := s.blocks.size
  let blk : Block := { id := id, kind := d.kind, join := d.join, dominators := id :: d.dominators }
  (id, d.parents.foldl (fun s p => s.link p id) { s with blocks := s.blocks.push blk })

end State

/-- Makes a block. -/
def newBlock (d : BlockDraft) : Build BlockId := do
  if d.dominators.isEmpty then throw .noDominators
  d.dominators.forM fun b => discard (Build.block b)
  d.parents.forM fun b => discard (Build.block b)
  Build.step (·.addBlock d)

/-- Adds an edge between two blocks. -/
def link (parent child : BlockId) : Build Unit := do
  let _ ← Build.block parent
  let _ ← Build.block child
  modify (·.link parent child)

/-- The dominators of a block, itself first. -/
def dominators (b : BlockId) : Build (List BlockId) := do
  return (← Build.block b).dominators

end SingleAssignment.Builder
