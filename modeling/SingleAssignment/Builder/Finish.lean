import SingleAssignment.Builder.Array
import SingleAssignment.Builder.Repair

/-!
# Finishing

A finished program is the part of the builder's state that was there when it was finished: the
instructions, blocks and warnings up to then.
-/

namespace SingleAssignment.Builder

/-- How much of a builder's state belongs to a finished program. -/
structure Extent where
  insts : Nat
  blocks : Nat
  diagnostics : Nat
  deriving DecidableEq, Repr, Inhabited

/-- Resolves every branch and finishes the program. -/
def finish : Build Extent := do
  let s ← get
  if !s.contexts.isEmpty then throw (.joinsOpen s.contexts.length)
  resolveBranches
  modify fun s => s.report (.finished s.settings.source s.blocks.size s.insts.size)
  let s ← get
  return ⟨s.insts.size, s.blocks.size, s.diagnostics.size⟩

end SingleAssignment.Builder
