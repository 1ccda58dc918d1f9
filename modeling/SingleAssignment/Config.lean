import SingleAssignment.Builder.Error
import SingleAssignment.Log.Record
import SingleAssignment.Text.Quoted
import SingleAssignment.Toml.Document

/-!
# Configuration

A configuration says how the compiler logs, how it lays out arrays and what it prints. It is read
from a TOML document with the tables `log`, `ssa` and `output`; a key that is not given keeps its
default, and keys that have no meaning are ignored.
-/

namespace SingleAssignment

/-- What the table `log` holds. -/
structure Config.LogSection where
  level : String := "info"
  format : String := "text"
  /-- Where the log goes, if not to the standard error. -/
  file : String := ""
  addSource : Bool := false
  deriving DecidableEq, Repr, Inhabited

/-- What the table `ssa` holds. -/
structure Config.BuildSection where
  wordSize : Int64 := 4
  baseAddress : Int64 := 0
  strict : Bool := false
  deriving DecidableEq, Repr, Inhabited

/-- What the table `output` holds. -/
structure Config.OutputSection where
  format : String := "text"
  deriving DecidableEq, Repr, Inhabited

/-- The configuration of the compiler. -/
structure Config where
  log : Config.LogSection := {}
  build : Config.BuildSection := {}
  output : Config.OutputSection := {}
  deriving DecidableEq, Repr, Inhabited

namespace Config

/-! ## Validity -/

/-- Why a configuration is refused. -/
inductive Error where
  /-- The text is no TOML document, or a setting has the wrong type. -/
  | malformed
  | wordSize (n : Int64)
  | baseAddress (n : Int64)
  | outputFormat (s : String)
  | logFormat (s : String)
  deriving DecidableEq, Repr, Inhabited

/-- The sort of an error. -/
def Error.kind : Error → Builder.ErrorKind
  | malformed => .other
  | _ => .invalidArgument

/-- What is wrong, without the sort. -/
def Error.detail : Error → String
  | malformed => "parse config: malformed document"
  | wordSize n => s!"ssa.word_size must be positive, got {n}"
  | baseAddress n => s!"ssa.base_address must not be negative, got {n}"
  | outputFormat s => "output.format must be text or dot, got " ++ Text.quote s
  | logFormat s => "log.format must be text or json, got " ++ Text.quote s

/-- The text of an error. -/
def Error.message (e : Error) : String :=
  e.detail ++ e.kind.suffix

/-- Checks a configuration. The first setting that is refused counts. -/
def validate (c : Config) : Except Error Unit :=
  if c.build.wordSize ≤ 0 then .error (.wordSize c.build.wordSize)
  else if c.build.baseAddress < 0 then .error (.baseAddress c.build.baseAddress)
  else if c.output.format ∉ ["text", "dot"] then .error (.outputFormat c.output.format)
  else if c.log.format ∉ ["text", "json"] then .error (.logFormat c.log.format)
  else .ok ()

/-! ## Reading -/

/-- The value of a setting, whose name may also be written in capitals. -/
def setting? (t : Toml.Table) (name : String) : Option Toml.Value :=
  (t.find? name).or (t.find? name.toUpper)

/-- A setting read from a table, or its default. It fails if its type is wrong. -/
def read {α : Type} (ofValue? : Toml.Value → Option α) (t : Toml.Table) (name : String)
    (default : α) : Except Error α :=
  match setting? t name with
  | none => .ok default
  | some v =>
    match ofValue? v with
    | some a => .ok a
    | none => .error .malformed

/-- The text that a value is. A number that is too great for a signed word counts as the code of a
character; there is no such character, so its text is the replacement character. -/
def text? : Toml.Value → Option String
  | .text s => some s
  | .natural _ => some "\uFFFD"
  | _ => none

/-- The integer that a value is. One that is too great for a signed word wraps. -/
def integer? : Toml.Value → Option Int64
  | .integer n => some n
  | .natural n => some n.toInt64
  | _ => none

/-- The truth value that a value is. -/
def flag? : Toml.Value → Option Bool
  | .flag b => some b
  | _ => none

/-- The table that a value is. -/
def table? : Toml.Value → Option Toml.Table
  | .table t => some t
  | _ => none

/-- Reads the settings of a document. -/
def ofTable (t : Toml.Table) : Except Error Config := do
  let defaults : Config := {}
  let log ← read table? t "log" (.empty false)
  let build ← read table? t "ssa" (.empty false)
  let output ← read table? t "output" (.empty false)
  return {
    log := {
      level := ← read text? log "level" defaults.log.level
      format := ← read text? log "format" defaults.log.format
      file := ← read text? log "file" defaults.log.file
      addSource := ← read flag? log "add_source" defaults.log.addSource
    }
    build := {
      wordSize := ← read integer? build "word_size" defaults.build.wordSize
      baseAddress := ← read integer? build "base_address" defaults.build.baseAddress
      strict := ← read flag? build "strict_declarations" defaults.build.strict
    }
    output := { format := ← read text? output "format" defaults.output.format }
  }

/-- The configuration that a text denotes. -/
def parse (cs : List Char) : Except Error Config := do
  match Toml.parse cs with
  | none => .error .malformed
  | some t =>
    let c ← ofTable t
    c.validate
    return c

/-! ## Use -/

/-- How the log is written. -/
def logSettings (c : Config) : Log.Settings where
  level := .ofName c.log.level
  format := .ofName c.log.format

/-- How code is built from a source with a name. -/
def builderSettings (c : Config) (source : String) : Builder.Settings :=
  let s : Builder.Settings :=
    { baseAddress := c.build.baseAddress, strict := c.build.strict, source := source }
  s.withWordSize c.build.wordSize

end Config

end SingleAssignment
