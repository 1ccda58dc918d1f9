/-!
# TOML strings

A basic string stands between double quotes and has escapes; a literal string stands between single
quotes and has none. Both have a form with three quotes, whose first character is dropped if it is a
line break. A reader gets the characters behind the opening quotes and returns the string with the
characters behind the closing ones.
-/

namespace SingleAssignment.Toml

/-- The value of a hexadecimal digit. -/
def hexDigit? (c : Char) : Option Nat :=
  if '0' ≤ c && c ≤ '9' then some (c.toNat - '0'.toNat)
  else if 'a' ≤ c && c ≤ 'f' then some (c.toNat - 'a'.toNat + 10)
  else if 'A' ≤ c && c ≤ 'F' then some (c.toNat - 'A'.toNat + 10)
  else none

/-- The character with a code; codes without one give the replacement character. -/
def charOfCode (n : Nat) : Char :=
  if h : n.isValidChar then Char.ofNatAux n h else '\uFFFD'

/-- The character that a letter behind a backslash stands for. -/
def escaped? : Char → Option Char
  | '"' => some '"'
  | '\\' => some '\\'
  | '/' => some '/'
  | 'b' => some '\x08'
  | 't' => some '\t'
  | 'n' => some '\n'
  | 'f' => some '\x0c'
  | 'r' => some '\r'
  | _ => none

/-- Whether a backslash before the character removes it and all like it that follow. -/
def isFolded (c : Char) : Bool :=
  c == ' ' || c == '\t' || c == '\r' || c == '\n'

/-- How far the reading of an escape has come. -/
inductive Escape where
  /-- No escape is open. -/
  | none
  /-- A backslash was read. -/
  | opened
  /-- Blanks behind a backslash are skipped. -/
  | folding
  /-- A code has this many digits left; `value` is that of the digits read. -/
  | code (left value : Nat)

/-- Whether a basic string may hold the character as it is. -/
def standsForItself (lines : Bool) (c : Char) : Bool :=
  0x20 ≤ c.toNat || c == '\t' || (lines && (c == '\n' || c == '\r'))

/-- Whether the blank that comes next is skipped. -/
def Escape.skips : Escape → Char → Bool
  | folding, c => isFolded c
  | _, _ => false

/-- Reads a basic string up to its closing quotes; `lines` says whether it may have line breaks. -/
def basicString (close : List Char) (lines : Bool) :
    Escape → List Char → Option (List Char × List Char)
  | _, [] => none
  | .opened, c :: cs =>
    if isFolded c then basicString close lines .folding cs
    else if c == 'u' then basicString close lines (.code 4 0) cs
    else if c == 'U' then basicString close lines (.code 8 0) cs
    else do
      let d ← escaped? c
      let (s, rest) ← basicString close lines .none cs
      return (d :: s, rest)
  | .code left value, c :: cs => do
    let d ← hexDigit? c
    let value := value * 16 + d
    if left ≤ 1 then
      let (s, rest) ← basicString close lines .none cs
      return (charOfCode value :: s, rest)
    else basicString close lines (.code (left - 1) value) cs
  | escape, c :: cs =>
    if escape.skips c then basicString close lines .folding cs
    else if close.isPrefixOf (c :: cs) then some ([], (c :: cs).drop close.length)
    else if c == '\\' then basicString close lines .opened cs
    else if standsForItself lines c then do
      let (s, rest) ← basicString close lines .none cs
      return (c :: s, rest)
    else none

/-- Reads a literal string up to its closing quotes. -/
def literalString (close : List Char) : List Char → Option (List Char × List Char)
  | [] => none
  | c :: cs =>
    if close.isPrefixOf (c :: cs) then some ([], (c :: cs).drop close.length)
    else do
      let (s, rest) ← literalString close cs
      return (c :: s, rest)

/-- The characters without a line break at their start. -/
def dropLineBreak : List Char → List Char
  | '\r' :: '\n' :: cs => cs
  | '\n' :: cs => cs
  | cs => cs

/-- Reads a string, opening quotes included. -/
def quotedString : List Char → Option (List Char × List Char)
  | '"' :: '"' :: '"' :: cs => basicString ['"', '"', '"'] true .none (dropLineBreak cs)
  | '"' :: cs => basicString ['"'] false .none cs
  | '\'' :: '\'' :: '\'' :: cs => literalString ['\'', '\'', '\''] (dropLineBreak cs)
  | '\'' :: cs => literalString ['\''] cs
  | _ => none

end SingleAssignment.Toml
