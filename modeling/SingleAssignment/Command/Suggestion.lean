import SingleAssignment.Text.Lower

/-!
# Suggestions

A word that is no command may be a misspelt one. A command is suggested if two edits turn the word
into its name, or if its name starts with the word; case does not count. Edits are counted in the
bytes of the UTF-8 form.
-/

namespace SingleAssignment.Command

/-- The next row of the table of distances. `left` is the distance to its left; the row above starts
with the distance above that. -/
def nextRow {α : Type} [BEq α] (c : α) : Nat → List Nat → List α → List Nat
  | left, diagonal :: above :: row, d :: ds =>
    let n := if c == d then diagonal else min left (min above diagonal) + 1
    n :: nextRow c n (above :: row) ds
  | _, _, _ => []

/-- How many insertions, deletions and replacements turn one row of items into another. -/
def editDistance {α : Type} [BEq α] (s t : List α) : Nat :=
  let last := s.foldl (fun row c =>
    let first := row.headD 0 + 1
    first :: nextRow c first row t) (List.range (t.length + 1))
  last.getLastD 0

/-- How many edits a word may be away from a command. -/
def suggestionDistance : Nat := 2

/-- The names, all in lower case, that a word may stand for. -/
def suggestions (names : List String) (word : String) : List String :=
  let word := Text.lower word
  names.filter fun name =>
    editDistance word.toUTF8.toList name.toUTF8.toList ≤ suggestionDistance ||
      word.toList.isPrefixOf name.toList

end SingleAssignment.Command
