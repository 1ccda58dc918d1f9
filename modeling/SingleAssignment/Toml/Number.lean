import SingleAssignment.Toml.Text
import SingleAssignment.Toml.Value

/-!
# TOML numbers

An integer is decimal, with a sign if need be, or has a base: `0x`, `0o` or `0b` and digits. An
integer is a word of 64 bits; one without a sign may use all bits. A number with a point or an
exponent is a floating-point number, and has to be in the range of those with 64 bits. An underscore
in a number has a digit in front of it and something behind it.
-/

namespace SingleAssignment.Toml

/-- The value of a decimal digit. -/
def decimalDigit? (c : Char) : Option Nat :=
  if '0' ≤ c && c ≤ '9' then some (c.toNat - '0'.toNat) else none

/-- Whether a character is a decimal digit. -/
def isDecimal (c : Char) : Bool :=
  (decimalDigit? c).isSome

/-- Whether every underscore has a digit in front of it and is not the last character; `before` says
whether a digit was just read. -/
def underscoresFit (isDigit : Char → Bool) : Bool → List Char → Bool
  | _, [] => true
  | before, '_' :: cs => before && !cs.isEmpty && underscoresFit isDigit false cs
  | _, c :: cs => underscoresFit isDigit (isDigit c) cs

/-- The value of a row of digits in a base. -/
def digitsValue? (base : Nat) (cs : List Char) : Option Nat :=
  if cs.isEmpty then none
  else cs.foldlM (fun n c => do
    let d ← hexDigit? c
    if d < base then some (n * base + d) else none) 0

/-- The integer with a value that uses at most 64 bits. -/
def integerOfNat? (n : Nat) : Option Value :=
  if n < Nat.pow 2 63 then some (.integer (Int64.ofNat n))
  else if n < Nat.pow 2 64 then some (.natural (UInt64.ofNat n))
  else none

/-- The integer with a base that stands behind its mark. -/
def basedInteger? (base : Nat) (cs : List Char) : Option Value :=
  let isDigit (c : Char) := if base == 16 then (hexDigit? c).isSome else isDecimal c
  if underscoresFit isDigit false cs then
    (digitsValue? base (cs.filter (· != '_'))).bind integerOfNat?
  else none

/-- The decimal integer of a text. Without a sign it has no needless zero in front, except that of
two digits. -/
def decimalInteger? (cs : List Char) : Option Value :=
  if underscoresFit isDecimal false cs then
    match cs.filter (· != '_') with
    | '-' :: ds => do
      let n ← digitsValue? 10 ds
      if n ≤ Nat.pow 2 63 then some (.integer (Int64.ofInt (-n))) else none
    | '+' :: ds => do
      let n ← digitsValue? 10 ds
      if n < Nat.pow 2 63 then some (.integer (Int64.ofNat n)) else none
    | ds =>
      if ds.head? == some '0' && 3 ≤ ds.length then none
      else (digitsValue? 10 ds).bind integerOfNat?
  else none

/-! ## Floating-point numbers -/

/-- The digits at the start of a text and what follows, if there are any. -/
def someDigits? (cs : List Char) : Option (List Char × List Char) :=
  if cs.head?.any isDecimal then some (cs.span isDecimal) else none

/-- The text without a sign at its start. -/
def dropSign : List Char → List Char
  | '+' :: cs => cs
  | '-' :: cs => cs
  | cs => cs

/-- The size of a number with a point or an exponent: that of its digits, times a power of ten. -/
structure Decimal where
  digits : List Char
  exponent : Int

namespace Decimal

/-- The value of the digits of an exponent. Those behind the fifth count for nothing. -/
def exponentOf (ds : List Char) : Nat :=
  ds.foldl (fun n c => if n < 10000 then n * 10 + (decimalDigit? c).getD 0 else n) 0

/-- The exponent that a text ends with. -/
def readExponent : List Char → Option Int
  | [] => some 0
  | c :: cs => do
    let (ds, rest) ← someDigits? (dropSign cs)
    if (c == 'e' || c == 'E') && rest.isEmpty then
      let n : Int := exponentOf ds
      return if cs.head? == some '-' then -n else n
    else none

/-- The size of a number, whose text has no underscores. -/
def read (cs : List Char) : Option Decimal := do
  let (whole, rest) ← someDigits? (dropSign cs)
  let (part, rest) ← match rest with
    | '.' :: rest => someDigits? rest
    | rest => some ([], rest)
  return ⟨whole ++ part, (← readExponent rest) - part.length⟩

/-- The smallest number that is rounded beyond the range of floating-point numbers with 64 bits: it
is halfway between the greatest of them and the next power of two. -/
def rangeEnd : Nat :=
  (Nat.pow 2 54 - 1) * Nat.pow 2 970

/-- The number of digits that `rangeEnd` has. -/
def rangeDigits : Nat := 309

/-- Whether a number is in the range of floating-point numbers with 64 bits. -/
def isInRange (d : Decimal) : Bool :=
  let digits := d.digits.dropWhile (· == '0')
  let places := digits.length + d.exponent
  let n := (digitsValue? 10 digits).getD 0
  if digits.isEmpty || places < rangeDigits then true
  else if rangeDigits < places then false
  else if 0 ≤ d.exponent then n * Nat.pow 10 d.exponent.toNat < rangeEnd
  else n < rangeEnd * Nat.pow 10 (-d.exponent).toNat

end Decimal

/-- Whether a text is a floating-point number. -/
def isFloat (cs : List Char) : Bool :=
  underscoresFit isDecimal false cs &&
    (Decimal.read (cs.filter (· != '_'))).any (·.isInRange)

/-! ## Reading -/

/-- What was seen of a number so far. -/
structure NumberScan where
  digit : Bool := false
  point : Bool := false
  exponent : Bool := false
  /-- The mark of the exponent was just read, so a sign may follow. -/
  signNext : Bool := false

/-- What is seen with one more character, if the number goes on with it; `cs` follows. -/
def NumberScan.next? (seen : NumberScan) (c : Char) (cs : List Char) : Option NumberScan :=
  if isDecimal c then some { seen with digit := true, signNext := false }
  else if c == '.' then
    if seen.digit && !seen.point && cs.head?.any isDecimal then
      some { seen with point := true, signNext := false }
    else none
  else if c == 'e' || c == 'E' then some { seen with exponent := true, signNext := true }
  else if c == '_' || (seen.signNext && (c == '+' || c == '-')) then
    some { seen with signNext := false }
  else none

/-- The characters that a number takes, what was seen in them, and the characters behind them. -/
def scanNumber (seen : NumberScan) : List Char → List Char × NumberScan × List Char
  | [] => ([], seen, [])
  | c :: cs =>
    match seen.next? c cs with
    | none => ([], seen, c :: cs)
    | some seen =>
      let (taken, seen, rest) := scanNumber seen cs
      (c :: taken, seen, rest)

/-- Reads a decimal number, which may have a sign. -/
def decimalNumber (cs : List Char) : Option (Value × List Char) := do
  let (taken, seen, rest) := scanNumber {} (dropSign cs)
  let token := cs.take (cs.length - (dropSign cs).length) ++ taken
  if !seen.digit then none
  else if seen.point || seen.exponent then
    if isFloat token then return (.float, rest) else none
  else return (← decimalInteger? token, rest)

/-- Reads an integer with a base, from behind its mark. -/
def basedNumber (base : Nat) (isDigit : Char → Bool) (cs : List Char) :
    Option (Value × List Char) := do
  let isPart (c : Char) := isDigit c || c == '_'
  let n ← basedInteger? base (cs.takeWhile isPart)
  return (n, cs.dropWhile isPart)

/-- Whether a text starts with a word. -/
def startsWith (word : String) (cs : List Char) : Bool :=
  word.toList.isPrefixOf cs

/-- Reads a number. -/
def number : List Char → Option (Value × List Char)
  | '0' :: 'x' :: cs => basedNumber 16 (fun c => (hexDigit? c).isSome) cs
  | '0' :: 'o' :: cs => basedNumber 8 (fun c => '0' ≤ c && c ≤ '7') cs
  | '0' :: 'b' :: cs => basedNumber 2 (fun c => c == '0' || c == '1') cs
  | '0' :: c :: cs => if c.isAlpha then none else decimalNumber ('0' :: c :: cs)
  | cs =>
    let unsigned := dropSign cs
    if startsWith "inf" unsigned || startsWith "nan" unsigned then some (.float, unsigned.drop 3)
    else decimalNumber cs

end SingleAssignment.Toml
