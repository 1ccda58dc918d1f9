import SingleAssignment.Command.Files
import SingleAssignment.Command.Request
import SingleAssignment.Config
import SingleAssignment.Log.Message
import SingleAssignment.Program.Check
import SingleAssignment.Program.Graph
import SingleAssignment.Program.Listing
import SingleAssignment.Source.Parser

/-!
# Running a request

`run` does what the arguments of the program ask for. It sees files only through what it is given,
and what it would print and write is its result. The log may go to the very file that is compiled;
what was logged by then is at the end of the text that is compiled.
-/

namespace SingleAssignment.Command

/-- Why a run failed. -/
inductive Error where
  | usage (e : UsageError)
  | config (e : Config.Error)
  /-- The configuration file cannot be read. -/
  | configFile (e : FileError)
  | file (e : FileError)
  /-- The source is no program; `path` is its file, if the error names it. -/
  | source (path : Option String) (e : Source.SyntaxError)
  | lowering (r : Lowering.Report)
  | violation (v : Violation)

namespace Error

/-- The sort of an error. -/
def kind : Error → Builder.ErrorKind
  | config e => e.kind
  | lowering r => r.kind
  | _ => .other

/-- The text of an error. -/
def message : Error → String
  | usage e => e.message
  | config e => e.message
  | configFile e => s!"read config {e.path}: {e.message}"
  | file e => e.message
  | source none e => e.message
  | source (some path) e => s!"{path}: {e.message}"
  | lowering r => r.message
  | violation v => v.message

/-- What the program prints about an error. -/
def text (e : Error) : String :=
  let hint := match e with
    | usage u => u.hint
    | _ => ""
  s!"Error: {e.message}\n" ++ hint

end Error

/-- What a run leaves. -/
structure Outcome where
  /-- The standard output. -/
  output : String := ""
  /-- The file that is written, with its text. -/
  written : Option (String × String) := none
  log : List Log.Record := []
  logSettings : Log.Settings := {}
  /-- The file that the log goes to, if not the standard error. -/
  logFile : Option String := none
  error : Option Error := none

namespace Outcome

/-- The lines of the log. -/
def logText (o : Outcome) (clock : Log.Clock) : String :=
  o.logSettings.text clock o.log

/-- The standard error. -/
def errorOutput (o : Outcome) (clock : Log.Clock) : String :=
  let log := if o.logFile.isSome then "" else o.logText clock
  match o.error with
  | some e => log ++ e.text
  | none => log

/-- The directory after a run in it: the log is added to its file, and then the output is
written. -/
def directory (o : Outcome) (clock : Log.Clock) (d : Directory) : Directory :=
  let d := match o.logFile with
    | some path => d.write path (· ++ o.logText clock)
    | none => d
  match o.written with
  | some (path, text) => d.write path fun _ => text
  | none => d

end Outcome

/-! ## Compiling -/

/-- A compilation, which logs what it does. -/
abbrev Compile := EStateM Error (List Log.Record)

/-- Adds to the log. -/
def note (rs : List Log.Record) : Compile Unit :=
  modify (· ++ rs)

/-- The result of a step that may fail. -/
def attempt {ε α : Type} (wrap : ε → Error) : Except ε α → Compile α
  | .ok a => return a
  | .error e => throw (wrap e)

/-- The configuration of a compilation: that of its file, changed by its flags. -/
def CompileOptions.configuration (files : Files) (o : CompileOptions) : Except Error Config := do
  let base ←
    if o.config = "" then .ok {}
    else
      match files.read o.config with
      | .error e => .error (.configFile e)
      | .ok text => (Config.parse text).mapError .config
  let c : Config :=
    { base with
      output := { base.output with format := o.format.getD base.output.format }
      log := { base.log with level := if o.verbose then "debug" else base.log.level }
      build := { base.build with strict := base.build.strict || o.strict } }
  c.validate.mapError .config
  return c

/-- The text of a source. If the log goes to its file, what was logged so far is at its end. -/
def sourceText (clock : Log.Clock) (files : Files) (c : Config) (path : String) :
    Compile (List Char) := do
  let text ← attempt .file (files.read path)
  if c.log.file != "" && files.same c.log.file path then
    return text ++ (c.logSettings.text clock (← get)).toList
  else return text

/-- Reads and lowers a source, and checks the program. -/
def compileSource (clock : Log.Clock) (symbols : Lowering.Symbols) (files : Files) (c : Config)
    (path : String) : Compile Program := do
  let text ← sourceText clock files c path
  note [Log.phaseStarted "parse"]
  let tree ← match Source.parse text with
    | .ok tree => pure tree
    | .error e =>
      note [Log.compilationError "parse" path e.pos.line e.fault.message]
      throw (.source (some path) e)
  note [Log.phaseCompleted "parse", Log.phaseStarted "ssa"]
  let (result, events) := Lowering.run (c.builderSettings path) tree
  note (events.map (Log.ofLowering symbols))
  let program ← match result with
    | .ok program => pure program
    | .error r =>
      note [Log.compilationError "ssa" path 0 r.message]
      throw (.lowering r)
  note (program.diagnostics.toList.map fun d => Log.compilationWarning "ssa" path 0 d.text)
  attempt .violation program.check
  note [Log.phaseCompleted "ssa"]
  return program

/-- A program in the format of a configuration. -/
def render (c : Config) (p : Program) : String :=
  if c.output.format = "dot" then p.graph else p.listing

/-- Compiles a file. -/
def runCompile (clock : Log.Clock) (symbols : Lowering.Symbols) (files : Option String → Files)
    (args : List String) (options : CompileOptions) (path : String) : Outcome :=
  match options.configuration (files none) with
  | .error e => { error := some e }
  | .ok c =>
    let logFile := if c.log.file = "" then none else some c.log.file
    match (logFile.map (files none).canWrite).getD (.ok ()) with
    | .error e => { error := some (.file e) }
    | .ok () =>
      let files := files logFile
      let start := [Log.compilerStarted (programName :: args), Log.fileStarted path]
      let ended (log : List Log.Record) (success : Bool) : Outcome :=
        { log := log ++ [Log.compilerCompleted success]
          logSettings := c.logSettings
          logFile := logFile }
      match compileSource clock symbols files c path start with
      | .error e log => { ended log false with error := some e }
      | .ok p log =>
        let text := render c p
        if options.output = "" then { ended log true with output := text }
        else
          match files.canWrite options.output with
          | .error e => { ended log true with error := some (.file e) }
          | .ok () => { ended log true with written := some (options.output, text) }

/-! ## The other requests -/

/-- Prints the tokens of a file. -/
def runTokens (files : Files) (path : String) : Outcome :=
  match files.read path with
  | .error e => { error := some (.file e) }
  | .ok text =>
    let tokens := Source.tokenize text
    let error := match tokens.getLast? with
      | some ⟨.fault f, pos⟩ => some (.source none ⟨pos, .lexical f⟩)
      | _ => none
    { output := String.join (tokens.map (·.text ++ "\n")), error := error }

/-- The version of the program. -/
def versionText : String := s!"{programName} compiler version 0.1.0\n"

/-- How the program is used. -/
def helpText : String :=
  s!"Usage:\n  {programName} compile SOURCE [-c FILE] [-f text|dot] [-o FILE] [-v] [--strict]\n" ++
    s!"  {programName} tokens SOURCE\n  {programName} version\n"

/-- Does what the arguments of the program ask for. The clock is that of the lines of the log that
the run reads back. The files are given as they are before a log is opened and once one is: a log
that is opened is a file, though it may have been none. -/
def run (clock : Log.Clock) (symbols : Lowering.Symbols) (files : Option String → Files)
    (args : List String) : Outcome :=
  match Request.ofArgs args with
  | .error e => { error := some (.usage e) }
  | .ok (.compile options path) => runCompile clock symbols files args options path
  | .ok (.tokens path) => runTokens (files none) path
  | .ok .version => { output := versionText }
  | .ok .help => { output := helpText }

end SingleAssignment.Command
