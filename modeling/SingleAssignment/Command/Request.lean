import SingleAssignment.Command.Flags
import SingleAssignment.Command.Suggestion

/-!
# Requests

What the arguments of the program ask for. The first word is a command and the other arguments are
its own, also those before it. An argument in front of the command that looks like a flag without a
value is taken to have the argument behind it as its value.
-/

namespace SingleAssignment.Command

/-- The name of the program. -/
def programName : String := "smplc"

/-- How a program is compiled. -/
structure CompileOptions where
  /-- The configuration file, if any. -/
  config : String := ""
  /-- The format of the output, in place of that of the configuration. -/
  format : Option String := none
  /-- The file of the output, if not the standard output. -/
  output : String := ""
  verbose : Bool := false
  strict : Bool := false
  deriving DecidableEq, Repr, Inhabited

/-- What is asked for. -/
inductive Request where
  | compile (options : CompileOptions) (path : String)
  | tokens (path : String)
  | version
  | help
  deriving DecidableEq, Repr, Inhabited

/-- What is wrong with the arguments. -/
inductive UsageError where
  | unknownCommand (word : String)
  | flag (e : FlagError)
  /-- The command takes one word. -/
  | wordCount (count : Nat)
  /-- The command takes no word. -/
  | extraWord (command word : String)
  deriving DecidableEq, Repr, Inhabited

/-- The commands that can be suggested. -/
def suggestedNames : List String := ["compile", "tokens", "version", "completion"]

namespace UsageError

/-- The text of an error. -/
def message : UsageError → String
  | unknownCommand word =>
    let hint := match suggestions suggestedNames word with
      | [] => ""
      | names => "\n\nDid you mean this?\n" ++ String.join (names.map fun n => s!"\t{n}\n")
    s!"unknown command {Text.quote word} for {Text.quote programName}" ++ hint
  | flag e => e.message
  | wordCount n => s!"accepts 1 arg(s), received {n}"
  | extraWord command word =>
    let whole := s!"{programName} {command}"
    s!"unknown command {Text.quote word} for {Text.quote whole}"

/-- What is said after an error. -/
def hint : UsageError → String
  | unknownCommand _ => s!"Run '{programName} --help' for usage.\n"
  | _ => ""

end UsageError

/-! ## Finding the command -/

/-- Whether an argument starts with a dash. -/
def hasDash (arg : String) : Bool :=
  arg.toList.head? == some '-'

/-- Whether an argument looks like a flag whose value is the next argument. -/
def takesNext (arg : String) : Bool :=
  !arg.toList.contains '=' &&
    (['-', '-'].isPrefixOf arg.toList || (hasDash arg && arg.utf8ByteSize == 2))

/-- The first word. One that only a flag without a value is in front of is none. -/
def firstWord? : List String → Option String
  | [] => none
  | arg :: args =>
    if arg == "--" then none
    else if takesNext arg then
      match args with
      | _ :: rest => if rest.isEmpty then none else firstWord? rest
      | [] => none
    else if arg != "" && !hasDash arg then some arg
    else firstWord? args

/-- The arguments without the first word that is the command. -/
def dropWord (word : String) : List String → List String
  | [] => []
  | arg :: args =>
    if arg == "--" then arg :: args
    else if takesNext arg then
      match args with
      | value :: rest => arg :: value :: dropWord word rest
      | [] => [arg]
    else if arg == word then args
    else arg :: dropWord word args

/-! ## Reading a request -/

/-- The flag that every command knows. -/
def helpFlag : Flag := { name := "help", letter := some 'h', isSwitch := true }

/-- The flags of `compile`. -/
def compileFlags : List Flag :=
  [{ name := "config", letter := some 'c' },
    { name := "format", letter := some 'f' },
    { name := "output", letter := some 'o' },
    { name := "verbose", letter := some 'v', isSwitch := true },
    { name := "strict", isSwitch := true },
    helpFlag]

/-- Reads the arguments of a command, and hands them on unless they ask for help. -/
def withArguments (flags : List Flag) (args : List String)
    (use : Arguments → Except UsageError Request) : Except UsageError Request :=
  match readArguments flags none args with
  | .error e => .error (.flag e)
  | .ok a => if a.isOn helpFlag.name then .ok .help else use a

/-- The only word of the arguments. -/
def onlyWord (a : Arguments) : Except UsageError String :=
  match a.words with
  | [word] => .ok word
  | words => .error (.wordCount words.length)

/-- The options that flags set. -/
def CompileOptions.ofArguments (a : Arguments) : CompileOptions where
  config := (a.value? "config").getD ""
  format := a.value? "format"
  output := (a.value? "output").getD ""
  verbose := a.isOn "verbose"
  strict := a.isOn "strict"

/-- What the arguments of the program ask for. -/
def Request.ofArgs (args : List String) : Except UsageError Request :=
  match firstWord? args with
  | none => withArguments [helpFlag] args fun _ => .ok .help
  | some "compile" => withArguments compileFlags (dropWord "compile" args) fun a => do
    return .compile (.ofArguments a) (← onlyWord a)
  | some "tokens" => withArguments [helpFlag] (dropWord "tokens" args) fun a => do
    return .tokens (← onlyWord a)
  | some "version" => withArguments [helpFlag] (dropWord "version" args) fun a =>
    match a.words with
    | [] => .ok .version
    | word :: _ => .error (.extraWord "version" word)
  | some "help" | some "completion" => .ok .help
  | some word => .error (.unknownCommand word)

end SingleAssignment.Command
