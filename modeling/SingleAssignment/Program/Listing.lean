import SingleAssignment.Program.Basic
import SingleAssignment.Text.Columns

/-!
# Listings

A listing shows each block with its active instructions and the versions of its variables, latest
first, and then the warnings.
-/

namespace SingleAssignment.Program

open Code Builder

/-- Ids in brackets. -/
def idList (ids : List BlockId) : String :=
  "[" ++ " ".intercalate (ids.map toString) ++ "]"

/-- The line that names a block. -/
def headerLine (b : Block) : String :=
  let join := if b.join = .none then "" else s!" join={b.join.name}"
  s!"BB{b.id} [{b.kind.name}]{join} doms={idList b.dominators} parents={idList b.parents}\n"

/-- The line of a version, in three columns. -/
def versionLine (v : Version) : String :=
  s!"  {v.var}_{v.number}\t= ({v.inst})\t{v.src.text}\n"

/-- The lines of a block. -/
def blockLines (p : Program) (b : Block) : String :=
  headerLine b ++ String.join ((p.order b).map fun i => s!"  {i.text}\n") ++
    String.join ((p.variablesIn b).flatMap fun name => (p.versionsOf b name).map versionLine)

/-- The listing of a program. -/
def listing (p : Program) : String :=
  Text.align (String.join (p.blocks.toList.map p.blockLines) ++
    String.join (p.diagnostics.toList.map fun d => s!"warning: {d.text}\n"))

end SingleAssignment.Program
