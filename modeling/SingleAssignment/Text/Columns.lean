/-!
# Aligned columns

`align` lays out text whose lines are divided into cells by tabs. On consecutive lines that have a
cell in a column, that cell is padded with blanks to the widest of them and two blanks more. The
last cell of a line belongs to no column, so a line without tabs ends every column above it. Form
feed ends a line as well, and every column with it; vertical tab ends a cell.
-/

namespace SingleAssignment.Text

/-- A line: the cells that a tab ends, then the text after the last tab. -/
structure Row where
  cells : List String
  last : String
  deriving Inhabited

/-- Blanks between a column and what follows it. -/
def columnGap : Nat := 2

/-- The text `s`, with blanks after it up to `width` characters. -/
def padTo (width : Nat) (s : String) : String :=
  String.ofList (s.toList ++ List.replicate (width - s.length) ' ')

/-- Pads the `k`th cell of every row to the widest of them and the gap. -/
def padRun (k : Nat) (rows : List Row) : List Row :=
  let width := rows.foldl (fun w r => max w ((r.cells.getD k "").length + columnGap)) 0
  rows.map fun r => { r with cells := r.cells.modify k (padTo width) }

/-- Pads column `k`, in each run of consecutive rows that have it. -/
def padColumn (rows : List Row) (k : Nat) : List Row :=
  (rows.splitBy fun a b => (k < a.cells.length) == (k < b.cells.length)).flatMap (padRun k)

/-- Pads every column of a section. -/
def padColumns (rows : List Row) : List Row :=
  (List.range (rows.foldl (fun n r => max n r.cells.length) 0)).foldl padColumn rows

/-- A row as a line of text. -/
def Row.text (r : Row) : String :=
  String.join r.cells ++ r.last

/-- What was read so far of a text: finished sections (last first), the finished rows of the current
section (last first), the finished cells of the current row (last first), the current cell (last
character first). -/
structure Layout where
  sections : List (List Row) := []
  rows : List Row := []
  cells : List String := []
  cell : List Char := []

namespace Layout

/-- The text of the current cell. -/
def cellText (l : Layout) : String :=
  String.ofList l.cell.reverse

/-- Ends the current cell. -/
def endCell (l : Layout) : Layout :=
  { l with cells := l.cellText :: l.cells, cell := [] }

/-- Ends the current row. -/
def endRow (l : Layout) : Layout :=
  { l with rows := ⟨l.cells.reverse, l.cellText⟩ :: l.rows, cells := [], cell := [] }

/-- Ends the current section. -/
def endSection (l : Layout) : Layout :=
  { l with sections := l.rows.reverse :: l.sections, rows := [] }

/-- Reads one character. -/
def step (l : Layout) (c : Char) : Layout :=
  match c.toNat with
  | 0x09 | 0x0B => l.endCell
  | 0x0A => l.endRow
  | 0x0C => l.endRow.endSection
  | _ => { l with cell := c :: l.cell }

end Layout

/-- Lays out a text in columns. -/
def align (s : String) : String :=
  let l := s.toList.foldl Layout.step {}
  let trailing := padColumns (l.endRow.rows.reverse)
  let closed := l.sections.reverse.flatMap padColumns
  String.join (closed.map fun r => r.text ++ "\n") ++ "\n".intercalate (trailing.map Row.text)

end SingleAssignment.Text
