/-!
# Decimal numbers

A number of the language is a word of 64 bits; its text is a row of ASCII digits whose value is
below two to the power of 63.
-/

namespace SingleAssignment.Source

/-- The value of a row of decimal digits that follows digits with value `acc`. -/
def decimalFrom? : Nat → List Char → Option Nat
  | acc, [] => some acc
  | acc, c :: cs =>
    if '0' ≤ c && c ≤ '9' then decimalFrom? (acc * 10 + (c.toNat - '0'.toNat)) cs else none

/-- The number that a text of ASCII digits denotes. -/
def numberOfText? (s : String) : Option Int64 :=
  match s.toList with
  | [] => none
  | cs => (decimalFrom? 0 cs).bind fun n => if n < Nat.pow 2 63 then some (Int64.ofNat n) else none

end SingleAssignment.Source
