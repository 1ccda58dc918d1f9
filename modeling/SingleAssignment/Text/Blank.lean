import SingleAssignment.Text.Ranges

/-!
# White space

The blanks are the characters with the property White_Space. They separate tokens, and a log value
that holds one is quoted.
-/

namespace SingleAssignment.Text

/-- Ranges of the white space characters, in increasing order. -/
def blankRanges : List (Nat × Nat) :=
  [(0x9, 0xD), (0x20, 0x20), (0x85, 0x85), (0xA0, 0xA0), (0x1680, 0x1680), (0x2000, 0x200A),
    (0x2028, 0x2029), (0x202F, 0x202F), (0x205F, 0x205F), (0x3000, 0x3000)]

/-- Tells the white space characters. -/
def isBlank (c : Char) : Bool :=
  inRanges blankRanges c.toNat

end SingleAssignment.Text
