import SingleAssignment.Program.Basic

/-!
# Graphs

A program as a directed graph in the DOT language: a record per block with its active instructions,
a solid edge to each child, and a dashed one from the immediate dominator.
-/

namespace SingleAssignment.Program

open Code Builder

/-- Whether a character means something in a record label. -/
def isRecordChar (c : Char) : Bool :=
  c == '{' || c == '}' || c == '|' || c == '<' || c == '>' || c == '"'

/-- The text with a backslash before each character that means something in a record label. -/
def escapeRecord (s : String) : String :=
  String.ofList (s.toList.flatMap fun c => if isRecordChar c then ['\\', c] else [c])

/-- The node of a block. -/
def nodeLine (p : Program) (b : Block) : String :=
  let title := s!"BB{b.id} {b.kind.name}"
  let lines := title :: (p.order b).map fun i => escapeRecord i.text
  s!" bb{b.id} [label=\"\x7b" ++ "|".intercalate lines ++ "\x7d\"];\n"

/-- The edge from a block to a child; one that does not lead forward is marked. -/
def edgeLine (b : Block) (c : BlockId) : String :=
  let style := if c ≤ b.id then " [label=\"back\"]" else ""
  s!" bb{b.id} -> bb{c}{style};\n"

/-- The edge from the immediate dominator of a block. -/
def dominatorLine (b : Block) : String :=
  match b.dominators with
  | _ :: d :: _ => s!" bb{d} -> bb{b.id} [style=dashed,color=blue];\n"
  | _ => ""

/-- The graph of a program. -/
def graph (p : Program) : String :=
  let blocks := p.blocks.toList
  "digraph ssa \x7b\n" ++ " node [shape=record,fontname=\"monospace\"];\n" ++
    String.join (blocks.map p.nodeLine) ++
    String.join (blocks.map fun b =>
      String.join (b.children.map (edgeLine b)) ++ dominatorLine b) ++
    "\x7d\n"

end SingleAssignment.Program
