import SingleAssignment.Text.Visible

/-!
# Quoted text

`quote` puts a text between double quotes, and `quoteChar` a character between single ones.
Printable characters stand for themselves, the quote and the backslash take a backslash, seven
control characters have a letter of their own, and everything else is written in hexadecimal: two
digits below U+0080, four below U+10000, eight above.
-/

namespace SingleAssignment.Text

/-- The `width` low hexadecimal digits of `n`, in lower case. -/
def hexDigits (width n : Nat) : List Char :=
  (List.range width).reverse.map fun k => Nat.digitChar (n / Nat.pow 16 k % 16)

/-- The letter that follows the backslash in the short form of a control character. -/
def shortEscape? (c : Char) : Option Char :=
  match c.toNat with
  | 0x07 => some 'a'
  | 0x08 => some 'b'
  | 0x09 => some 't'
  | 0x0A => some 'n'
  | 0x0B => some 'v'
  | 0x0C => some 'f'
  | 0x0D => some 'r'
  | _ => none

/-- A character as it is shown between two marks. -/
def escapeChar (mark c : Char) : List Char :=
  if c == mark || c == '\\' then ['\\', c]
  else if isPrintable c then [c]
  else match shortEscape? c with
    | some letter => ['\\', letter]
    | none =>
      let n := c.toNat
      if n < 0x80 then '\\' :: 'x' :: hexDigits 2 n
      else if n < 0x10000 then '\\' :: 'u' :: hexDigits 4 n
      else '\\' :: 'U' :: hexDigits 8 n

/-- The text between double quotes, with everything escaped that cannot stand there. -/
def quote (s : String) : String :=
  String.ofList ('"' :: s.toList.flatMap (escapeChar '"') ++ ['"'])

/-- The character between single quotes, escaped if it cannot stand there. -/
def quoteChar (c : Char) : String :=
  String.ofList ('\'' :: escapeChar '\'' c ++ ['\''])

end SingleAssignment.Text
