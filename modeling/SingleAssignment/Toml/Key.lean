import SingleAssignment.Toml.Text

/-!
# TOML keys

A key is a path: parts with dots between them, and a part is bare or quoted. The text of a key is
read first, with the escapes in quoted parts resolved, and then split into its parts.
-/

namespace SingleAssignment.Toml

/-- Whether a character may stand in a bare part. -/
def isBare (c : Char) : Bool :=
  c.isAlphanum || c == '_' || c == '-'

/-- Whether a character is a blank within a line. -/
def isSpace (c : Char) : Bool :=
  c == ' ' || c == '\t'

/-- What the next character of a key may be. -/
inductive KeyState where
  /-- A part, a dot or a blank. -/
  | between
  /-- More of a bare part, of which this was read. -/
  | bare (part : List Char)
  /-- A dot, or a blank: a bare part was followed by one. -/
  | closed
  /-- More of a quoted part, of which this was read, up to the quote. -/
  | quoted (mark : Char) (part : List Char)
  /-- The start of a part, or a space: a dot was read. -/
  | afterDot

/-- The parts of a key, from a state within its text. -/
def keyParts : KeyState → List Char → Option (List String)
  | .between, [] | .closed, [] => some []
  | .bare part, [] => some [String.ofList part]
  | .quoted _ _, [] | .afterDot, [] => none
  | .quoted mark part, c :: cs =>
    if c == mark then (keyParts .between cs).map (String.ofList part :: ·)
    else keyParts (.quoted mark (part ++ [c])) cs
  | .bare part, c :: cs =>
    if isBare c then keyParts (.bare (part ++ [c])) cs
    else if c == '.' then (keyParts .afterDot cs).map (String.ofList part :: ·)
    else if isSpace c then (keyParts .closed cs).map (String.ofList part :: ·)
    else none
  | .closed, c :: cs =>
    if isSpace c then keyParts .closed cs
    else if c == '.' then keyParts .afterDot cs
    else none
  | .afterDot, c :: cs =>
    if c == ' ' then keyParts .between cs
    else if isBare c then keyParts (.bare [c]) cs
    else if c == '"' || c == '\'' then keyParts (.quoted c []) cs
    else none
  | .between, c :: cs =>
    if isSpace c then keyParts .between cs
    else if isBare c then keyParts (.bare [c]) cs
    else if c == '"' || c == '\'' then keyParts (.quoted c []) cs
    else if c == '.' then keyParts .afterDot cs
    else none

/-- The parts of a key, of which there is one at least. -/
def splitKey? (raw : List Char) : Option (List String) :=
  match keyParts .between raw with
  | some [] => none
  | parts => parts

/-- Reads the text of a key up to the equals sign or to a blank that no dot follows. Every step
takes a character, so one more than the length of the text is fuel enough. -/
def rawKey : Nat → List Char → Option (List Char × List Char)
  | 0, _ => none
  | _ + 1, [] => some ([], [])
  | fuel + 1, c :: cs =>
    if c == '=' then some ([], c :: cs)
    else if c == '"' || c == '\'' then do
      let (s, rest) ← if c == '"' then basicString ['"'] true .none cs else literalString ['\''] cs
      let (raw, left) ← rawKey fuel rest
      return (c :: s ++ c :: raw, left)
    else if isSpace c then
      match cs.dropWhile isSpace with
      | '.' :: rest => do
        let (raw, left) ← rawKey fuel (rest.dropWhile isSpace)
        return (' ' :: cs.takeWhile isSpace ++ '.' :: rest.takeWhile isSpace ++ raw, left)
      | rest => some ([], rest)
    else if c == '.' || isBare c then do
      let (raw, left) ← rawKey fuel cs
      return (c :: raw, left)
    else none

end SingleAssignment.Toml
