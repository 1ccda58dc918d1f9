/-!
# Sets of code points as ranges

A character class is a list of closed ranges of code points in increasing order, so a search may
stop at the first range that starts beyond the code point.
-/

namespace SingleAssignment.Text

/-- Whether `n` lies in one of the ranges, which are listed in increasing order. -/
def inRanges : List (Nat × Nat) → Nat → Bool
  | [], _ => false
  | (lo, hi) :: rest, n => if n < lo then false else if n ≤ hi then true else inRanges rest n

end SingleAssignment.Text
