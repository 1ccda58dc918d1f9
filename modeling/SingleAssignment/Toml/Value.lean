/-!
# TOML values and tables

A document is a table: keys, each with a value. A path of keys leads from a table through the tables
under it; where a key stands for several tables, a path goes through the newest one. A table written
inline is closed: neither it nor a table that a path would create under it takes further keys.
-/

namespace SingleAssignment.Toml

mutual

/-- What a key stands for. -/
inductive Value where
  | text (s : String)
  | integer (n : Int64)
  /-- An integer that is too great for a signed word. -/
  | natural (n : UInt64)
  | flag (b : Bool)
  /-- A floating-point number. No setting is one, so it is only checked. -/
  | float
  /-- A date, a time of day or both. No setting is one, so it is only checked. -/
  | time
  | array (items : List Value)
  | table (t : Table)
  /-- Several tables, of which there is a newest. -/
  | tables (newest : Table) (older : List Table)

/-- Keys with their values, and whether the table is written inline. -/
inductive Table where
  | mk (inline : Bool) (entries : List (String × Value))

end

/-- The array of some values. If all of them are tables, it is the same as those tables written
one by one. -/
def Value.ofItems (items : List Value) : Value :=
  let tables := items.filterMap fun
    | .table t => some t
    | _ => none
  match tables.reverse with
  | newest :: older => if tables.length = items.length then .tables newest older else .array items
  | [] => .array items

namespace Table

/-- Whether a table is written inline. -/
def isInline : Table → Bool
  | mk inline _ => inline

/-- The entries of a table. -/
def entries : Table → List (String × Value)
  | mk _ entries => entries

/-- A table without entries. -/
def empty (inline : Bool) : Table :=
  mk inline []

/-- The table, as one that is written inline. -/
def asInline (t : Table) : Table :=
  mk true t.entries

/-- The value of a key. -/
def find? (t : Table) (key : String) : Option Value :=
  t.entries.lookup key

/-- Gives a key a value, in place of one it has. -/
def put (t : Table) (key : String) (v : Value) : Table :=
  mk t.isInline ((key, v) :: t.entries.filter (·.1 != key))

/-- The value at the end of a path. -/
def get? : List String → Table → Option Value
  | [], t => some (.table t)
  | [key], t => t.find? key
  | key :: path, t =>
    match t.find? key with
    | some (.table u) | some (.tables u _) => u.get? path
    | _ => none

/-- Changes the table at the end of a path and creates the tables on the way that are missing. It
fails if the path goes through another value, or if the change fails. -/
def modify? (f : Table → Option Table) : List String → Table → Option Table
  | [], t => f t
  | key :: path, t =>
    match t.find? key with
    | none => ((empty t.isInline).modify? f path).map fun u => t.put key (.table u)
    | some (.table u) => (u.modify? f path).map fun u => t.put key (.table u)
    | some (.tables u older) => (u.modify? f path).map fun u => t.put key (.tables u older)
    | some _ => none

/-- Puts a value at the end of a path, whatever is there, and creates the tables on the way that are
missing. A key on the way that stands for another value is passed over. -/
def set (v : Value) : List String → Table → Table
  | [], t => t
  | [key], t => t.put key v
  | key :: path, t =>
    match t.find? key with
    | none => t.put key (.table ((empty false).set v path))
    | some (.table u) => t.put key (.table (u.set v path))
    | some (.tables u older) => t.put key (.tables (u.set v path) older)
    | some _ => t.set v path

/-- Defines a key in the table at the end of a path: the table takes keys, and has not this one. -/
def define? (path : List String) (key : String) (v : Value) : Table → Option Table :=
  modify? (fun t => if t.isInline || (t.find? key).isSome then none else some (t.put key v)) path

end Table

end SingleAssignment.Toml
