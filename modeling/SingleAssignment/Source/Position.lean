/-!
# Positions in a source text

A position is a line and a column, both counted from one in characters.
-/

namespace SingleAssignment.Source

/-- A place in a source text. -/
structure Position where
  line : Int
  column : Int
  deriving DecidableEq, Repr, Inhabited

namespace Position

/-- The first character of a text. -/
def start : Position := ⟨1, 1⟩

/-- One character further on the same line. -/
def right (p : Position) : Position :=
  { p with column := p.column + 1 }

/-- The first character of the next line. -/
def nextLine (p : Position) : Position :=
  ⟨p.line + 1, 1⟩

/-- The position as messages show it. -/
def text (p : Position) : String :=
  s!"{p.line}:{p.column}"

end Position

end SingleAssignment.Source
