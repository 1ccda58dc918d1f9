import SingleAssignment.Toml.Time
import SingleAssignment.Toml.Value

/-!
# Reading a TOML document

The text is read as a list of items: headers of tables, headers of one more of several tables, and
keys with their values. The items, taken in order, build the table that the document is.
-/

namespace SingleAssignment.Toml

/-- Skips blanks, line breaks and comments; `inComment` says that a comment is open. -/
def skipVoid : Bool → List Char → List Char
  | _, [] => []
  | inComment, c :: cs =>
    if c == '\n' then skipVoid false cs
    else if inComment then skipVoid true cs
    else if c == '#' then skipVoid true cs
    else if isSpace c || c == '\r' then skipVoid false cs
    else c :: cs

/-- Reads a key and the equals sign behind it. A blank behind the key may be followed by line breaks
and comments. -/
def keyAndEquals (cs : List Char) : Option (List String × List Char) := do
  let (raw, rest) ← rawKey (cs.length + 1) cs
  match skipVoid false rest with
  | '=' :: rest => return (← splitKey? raw, rest)
  | _ => none

/-- What follows an empty array that stands on a line below its equals sign. It is the only value
that may stand there. -/
def emptyArrayBelow? (cs : List Char) : Option (List Char) :=
  match cs.dropWhile isSpace with
  | [] => none
  | c :: cs =>
    if c == '\n' || c == '\r' || c == '#' then
      match skipVoid false (c :: cs) with
      | '[' :: ']' :: rest => some rest
      | _ => none
    else none

/-! ## Values

The fuel bounds the values and the elements that are read; a text has fewer of them than twice its
length. -/

mutual

/-- Reads a value; `skip` passes over what may be around it. -/
def value (skip : List Char → List Char) : Nat → List Char → Option (Value × List Char)
  | 0, _ => none
  | fuel + 1, cs =>
    match cs.dropWhile isSpace with
    | '[' :: rest => do
      let (items, rest) ← elements fuel (skipVoid false rest)
      return (.ofItems items, rest)
    | '{' :: rest =>
      match skipVoid false rest with
      | '}' :: rest => some (.table (.empty true), rest)
      | rest => do
        let (t, rest) ← fields fuel (.empty false) rest
        return (.table t.asInline, rest)
    | c :: rest =>
      let cs := c :: rest
      if c == '"' || c == '\'' then
        (quotedString cs).map fun (s, rest) => (.text (String.ofList s), rest)
      else if startsWith "true" cs then some (.flag true, cs.drop 4)
      else if startsWith "false" cs then some (.flag false, cs.drop 5)
      else if startsDate cs || startsTime cs then
        (moment? skip cs).map fun rest => (.time, rest)
      else number cs
    | [] => none

/-- Reads the elements of an array up to its closing bracket. A comma may follow the last one. -/
def elements : Nat → List Char → Option (List Value × List Char)
  | 0, _ => none
  | _ + 1, ']' :: rest => some ([], rest)
  | fuel + 1, cs => do
    let (v, rest) ← value (skipVoid false) fuel cs
    match skipVoid false rest with
    | ',' :: rest => do
      let (vs, rest) ← elements fuel (skipVoid false rest)
      return (v :: vs, rest)
    | ']' :: rest => return ([v], rest)
    | _ => none

/-- Reads the fields of an inline table up to its closing brace; `t` holds those before. The comma
stands on the line where the field that it follows has started. -/
def fields : Nat → Table → List Char → Option (Table × List Char)
  | 0, _, _ => none
  | fuel + 1, t, cs => do
    let (path, rest) ← keyAndEquals cs
    match emptyArrayBelow? rest with
    | some rest =>
      match skipVoid false rest with
      | '}' :: rest => return (t.set (.array []) path, rest)
      | _ => none
    | none =>
      let (v, rest) ← value (List.dropWhile isSpace) fuel rest
      let t := t.set v path
      match rest.dropWhile isSpace with
      | ',' :: rest => fields fuel t (skipVoid false rest)
      | rest =>
        match skipVoid false rest with
        | '}' :: rest => return (t, rest)
        | _ => none

end

/-! ## Items -/

/-- One item of a document. -/
inductive Item where
  /-- What follows belongs to a table. -/
  | header (raw : List Char)
  /-- What follows belongs to one more of several tables. -/
  | elementHeader (raw : List Char)
  | entry (path : List String) (v : Value)

/-- Reads the rest of a line behind a value, which holds a comment at most. -/
def endOfLine (cs : List Char) : Option (List Char) :=
  match cs.dropWhile isSpace with
  | [] => some []
  | c :: rest => if c == '\n' || c == '\r' || c == '#' then some (c :: rest) else none

/-- The text of a header up to a bracket, and the characters from there. -/
def headerText (cs : List Char) : List Char × List Char :=
  cs.span fun c => c != '[' && c != ']'

/-- Reads one item. -/
def item : List Char → Option (Item × List Char)
  | '[' :: '[' :: cs =>
    match headerText cs with
    | (raw, ']' :: ']' :: rest) => some (.elementHeader raw, rest)
    | _ => none
  | '[' :: cs =>
    match headerText cs with
    | (raw, ']' :: rest) => some (.header raw, rest)
    | _ => none
  | cs => do
    let (path, rest) ← keyAndEquals cs
    match emptyArrayBelow? rest with
    | some rest => return (.entry path (.array []), rest)
    | none =>
      let (v, rest) ← value (List.dropWhile isSpace) (2 * cs.length + 2) rest
      return (.entry path v, ← endOfLine rest)

/-- Reads all items. Every item takes a character at least, so the length of the text is fuel
enough. -/
def items : Nat → List Char → Option (List Item)
  | 0, _ => none
  | fuel + 1, cs =>
    match skipVoid false cs with
    | [] => some []
    | cs => do
      let (i, rest) ← item cs
      return i :: (← items fuel rest)

/-! ## Documents -/

/-- A document that is being built. -/
structure Draft where
  root : Table := .empty false
  /-- The path of the table that entries belong to. -/
  current : List String := []
  /-- The headers that were used, as they are written. -/
  headers : List (List Char) := []

namespace Draft

/-- Opens a table. A header is used once. -/
def openTable (d : Draft) (raw : List Char) : Option Draft := do
  if d.headers.contains raw then none
  else
    let path ← splitKey? raw
    let root ← d.root.modify? some path
    match root.get? path with
    | some (.table t) => if t.isInline then none else some ()
    | _ => some ()
    return { root := root, current := path, headers := raw :: d.headers }

/-- Opens one more of several tables. The headers of tables under it can be used again. -/
def openElement (d : Draft) (raw : List Char) : Option Draft := do
  let path ← splitKey? raw
  let root := (d.root.modify? some path.dropLast).getD d.root
  let tables ← match root.get? path with
    | none => some (Value.tables (.empty false) [])
    | some (.tables newest older) => some (.tables (.empty false) (newest :: older))
    | some _ => none
  let kept := d.headers.filter fun h => !(raw ++ ['.']).isPrefixOf h
  return { root := root.set tables path, current := path, headers := raw :: kept }

/-- Takes one item. -/
def add (d : Draft) : Item → Option Draft
  | .header raw => d.openTable raw
  | .elementHeader raw => d.openElement raw
  | .entry path v => do
    let key ← path.getLast?
    let root ← d.root.define? (d.current ++ path.dropLast) key v
    return { d with root := root }

end Draft

/-- The table that a text denotes. A byte order mark at its start is skipped. -/
def parse (cs : List Char) : Option Table := do
  let cs := if cs.head? == some '\uFEFF' then cs.tail else cs
  let is ← items (cs.length + 1) cs
  let d ← is.foldlM Draft.add {}
  return d.root

end SingleAssignment.Toml
