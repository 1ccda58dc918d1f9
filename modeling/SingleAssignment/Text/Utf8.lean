/-!
# Text from bytes

`decodeUtf8` reads a sequence of bytes as text. A byte that does not start a well-formed character
(a stray continuation byte, an overlong form, a surrogate, a value above U+10FFFF, a truncated
character) is read as one replacement character, and reading goes on with the byte after it.
-/

namespace SingleAssignment.Text

/-- The replacement character, which stands for a byte that is not part of the text. -/
def replacement : Char := '�'

/-- Whether `b` is a continuation byte that lies between `lo` and `hi`. -/
def isTail (lo hi b : Nat) : Bool :=
  lo ≤ b && b ≤ hi

/-- The number of continuation bytes after first byte `a`, and the range of the first of them. -/
def tailsAfter (a : Nat) : Option (Nat × Nat × Nat) :=
  if 0xC2 ≤ a && a ≤ 0xDF then some (1, 0x80, 0xBF)
  else if a == 0xE0 then some (2, 0xA0, 0xBF)
  else if a == 0xED then some (2, 0x80, 0x9F)
  else if 0xE1 ≤ a && a ≤ 0xEF then some (2, 0x80, 0xBF)
  else if a == 0xF0 then some (3, 0x90, 0xBF)
  else if 0xF1 ≤ a && a ≤ 0xF3 then some (3, 0x80, 0xBF)
  else if a == 0xF4 then some (3, 0x80, 0x8F)
  else none

/-- The text that a sequence of bytes encodes. -/
def decodeUtf8 : List Nat → List Char
  | [] => []
  | a :: afterA =>
    if a < 0x80 then Char.ofNat a :: decodeUtf8 afterA
    else
      match tailsAfter a, afterA with
      | some (1, lo, hi), b :: afterB =>
        if isTail lo hi b then Char.ofNat (a % 32 * 64 + b % 64) :: decodeUtf8 afterB
        else replacement :: decodeUtf8 (b :: afterB)
      | some (2, lo, hi), b :: c :: afterC =>
        if isTail lo hi b && isTail 0x80 0xBF c then
          Char.ofNat ((a % 16 * 64 + b % 64) * 64 + c % 64) :: decodeUtf8 afterC
        else replacement :: decodeUtf8 (b :: c :: afterC)
      | some (3, lo, hi), b :: c :: d :: afterD =>
        if isTail lo hi b && isTail 0x80 0xBF c && isTail 0x80 0xBF d then
          Char.ofNat (((a % 8 * 64 + b % 64) * 64 + c % 64) * 64 + d % 64) :: decodeUtf8 afterD
        else replacement :: decodeUtf8 (b :: c :: d :: afterD)
      | _, rest => replacement :: decodeUtf8 rest

end SingleAssignment.Text
