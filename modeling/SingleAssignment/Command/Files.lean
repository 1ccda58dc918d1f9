/-!
# Files

What a run of the program can ask about files: the text of one, whether one can be written, and
whether two paths lead to one file. A `Directory` answers these questions for a flat directory in
which the program runs.
-/

namespace SingleAssignment.Command

/-- What is done with a file. -/
inductive FileAction where
  | opening
  | reading
  deriving DecidableEq, Repr, Inhabited

/-- Why it cannot be done. -/
inductive FileCause where
  | missing
  | isDirectory
  | notDirectory
  /-- A name or the whole path has too many bytes. -/
  | tooLong
  /-- The path has a character that no path can have. -/
  | invalid
  deriving DecidableEq, Repr, Inhabited

/-- Why a file cannot be used. -/
structure FileError where
  action : FileAction
  path : String
  cause : FileCause
  deriving DecidableEq, Repr, Inhabited

/-- The verb of an action. -/
def FileAction.verb : FileAction → String
  | opening => "open"
  | reading => "read"

/-- The text of a cause. -/
def FileCause.text : FileCause → String
  | missing => "no such file or directory"
  | isDirectory => "is a directory"
  | notDirectory => "not a directory"
  | tooLong => "file name too long"
  | invalid => "invalid argument"

/-- The text of an error. -/
def FileError.message (e : FileError) : String :=
  s!"{e.action.verb} {e.path}: {e.cause.text}"

/-- The files that a run sees. -/
structure Files where
  /-- The text of a file. -/
  read : String → Except FileError (List Char)
  /-- Fails if a file cannot be written. -/
  canWrite : String → Except FileError Unit
  /-- Whether two paths lead to one file. -/
  same : String → String → Bool

/-! ## Paths -/

/-- What a path leads to. -/
inductive Place where
  /-- A name of the directory; `slash` says that a slash is behind it. -/
  | entry (name : String) (slash : Bool)
  /-- A path that goes on behind a name. -/
  | below (name : String)
  /-- This directory or one above. -/
  | directory
  /-- Nothing that is known. -/
  | nowhere
  /-- Nothing: there are too many bytes in the path or in the first name. -/
  | tooLong
  /-- Nothing: the path has a character that no path can have. -/
  | invalid
  deriving DecidableEq, Repr, Inhabited

/-- The number of bytes that a name has at most. -/
def nameLimit : Nat := 255

/-- The number of bytes that a path has at most. -/
def pathLimit : Nat := 4095

/-- What a path leads to. Empty parts and dots in it count for nothing. -/
def Place.ofPath (path : String) : Place :=
  let parts := path.splitOn "/"
  let names := parts.filter fun p => p != "" && p != "."
  if path.toList.contains '\x00' then .invalid
  else if pathLimit < path.utf8ByteSize then .tooLong
  else if path == "" then .nowhere
  else if names.all (· == "..") then .directory
  else if (names.find? (· != "..")).any (nameLimit < ·.utf8ByteSize) then .tooLong
  else if parts.head? == some "" then .nowhere
  else
    match names with
    | [name] =>
      match parts.getLast? with
      | some "" => .entry name true
      | some "." => .below name
      | _ => .entry name false
    | ".." :: _ | [] => .nowhere
    | name :: _ => .below name

/-- Whether two paths lead to one name of the directory. -/
def sameEntry (path path' : String) : Bool :=
  match Place.ofPath path, Place.ofPath path' with
  | .entry name false, .entry name' false => name == name'
  | _, _ => false

/-! ## Directories -/

/-- The files of a directory that has no directories in it. -/
structure Directory where
  entries : List (String × String) := []
  deriving DecidableEq, Repr, Inhabited

namespace Directory

/-- The text of a file. -/
def find? (d : Directory) (name : String) : Option String :=
  d.entries.lookup name

/-- Why nothing can be behind a name. -/
def causeBelow (d : Directory) (name : String) : FileCause :=
  if (d.find? name).isSome then .notDirectory else .missing

/-- Reads the file that a path leads to. -/
def read (d : Directory) (path : String) : Except FileError (List Char) :=
  let fail (action : FileAction) (cause : FileCause) : Except FileError (List Char) :=
    .error ⟨action, path, cause⟩
  match Place.ofPath path with
  | .entry name slash =>
    match d.find? name with
    | some text => if slash then fail .opening .notDirectory else .ok text.toList
    | none => fail .opening .missing
  | .below name => fail .opening (d.causeBelow name)
  | .directory => fail .reading .isDirectory
  | .nowhere => fail .opening .missing
  | .tooLong => fail .opening .tooLong
  | .invalid => fail .opening .invalid

/-- Fails if no file can be written where a path leads to. -/
def canWrite (d : Directory) (path : String) : Except FileError Unit :=
  let fail (cause : FileCause) : Except FileError Unit := .error ⟨.opening, path, cause⟩
  match Place.ofPath path with
  | .entry _ slash => if slash then fail .isDirectory else .ok ()
  | .below name => fail (d.causeBelow name)
  | .directory => fail .isDirectory
  | .nowhere => fail .missing
  | .tooLong => fail .tooLong
  | .invalid => fail .invalid

/-- Writes a file: `change` makes its text from the one it has, which is empty for a new file. -/
def write (d : Directory) (path : String) (change : String → String) : Directory :=
  match Place.ofPath path with
  | .entry name false =>
    let text := change ((d.find? name).getD "")
    ⟨(name, text) :: d.entries.filter (·.1 != name)⟩
  | _ => d

/-- The files of a directory, in which a log may have been opened. -/
def files (d : Directory) (log : Option String) : Files :=
  let d := match log with
    | some path => d.write path id
    | none => d
  { read := d.read, canWrite := d.canWrite, same := sameEntry }

end Directory

end SingleAssignment.Command
