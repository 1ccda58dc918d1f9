import SingleAssignment.Text.Quoted

/-!
# Flags

The arguments of a command are flags and words in any order. A flag is written with its name behind
two dashes or with its letter behind one, and letters can be grouped. Its value follows an equals
sign or is the next argument; behind a letter it also follows directly. A switch has a value only
behind an equals sign and is otherwise turned on. Two dashes alone end the flags. What follows
`test.` in a group of letters belongs to a test runner and is passed over.
-/

namespace SingleAssignment.Command

/-- A flag that a command knows. -/
structure Flag where
  name : String
  letter : Option Char := none
  isSwitch : Bool := false
  deriving DecidableEq, Repr, Inhabited

/-- Both forms of a flag. -/
def Flag.forms (f : Flag) : String :=
  match f.letter with
  | some c => s!"-{c}, --{f.name}"
  | none => s!"--{f.name}"

/-- What is wrong with a flag. -/
inductive FlagError where
  | unknown (name : String)
  | unknownLetter (letter : Char) (group : String)
  /-- Nothing, a third dash or an equals sign follows the two dashes. -/
  | noName (arg : String)
  | valueMissing (name : String)
  | letterValueMissing (letter : Char) (group : String)
  | noSwitchValue (value : String) (flag : Flag)
  deriving DecidableEq, Repr, Inhabited

/-- The text of an error. -/
def FlagError.message : FlagError → String
  | unknown name => s!"unknown flag: --{name}"
  | unknownLetter c group => s!"unknown shorthand flag: {Text.quoteChar c} in -{group}"
  | noName arg => s!"bad flag syntax: {arg}"
  | valueMissing name => s!"flag needs an argument: --{name}"
  | letterValueMissing c group => s!"flag needs an argument: {Text.quoteChar c} in -{group}"
  | noSwitchValue value f =>
    let shown := Text.quote value
    s!"invalid argument {shown} for {Text.quote f.forms} flag: " ++
      s!"strconv.ParseBool: parsing {shown}: invalid syntax"

/-- A flag with its value. -/
structure Setting where
  name : String
  value : String
  deriving DecidableEq, Repr, Inhabited

/-- The arguments of a command. -/
structure Arguments where
  settings : List Setting := []
  words : List String := []
  deriving DecidableEq, Repr, Inhabited

/-- The value of a flag; the last setting counts. -/
def Arguments.value? (a : Arguments) (name : String) : Option String :=
  (a.settings.reverse.find? (·.name == name)).map (·.value)

/-- Whether a switch is on. -/
def Arguments.isOn (a : Arguments) (name : String) : Bool :=
  a.value? name == some "true"

/-! ## Reading -/

/-- The truth value that a text denotes. -/
def truthValue? (s : String) : Option Bool :=
  if ["1", "t", "T", "true", "TRUE", "True"].contains s then some true
  else if ["0", "f", "F", "false", "FALSE", "False"].contains s then some false
  else none

/-- Gives a flag a value. -/
def Flag.set (f : Flag) (value : String) : Except FlagError Setting :=
  if f.isSwitch then
    match truthValue? value with
    | some b => .ok ⟨f.name, if b then "true" else "false"⟩
    | none => .error (.noSwitchValue value f)
  else .ok ⟨f.name, value⟩

/-- A flag whose value is the next argument, and the error if there is none. -/
structure Waiting where
  flag : Flag
  error : FlagError

/-- The settings of one argument, and the flag at its end that waits for a value. -/
abbrev Reading := Except FlagError (List Setting × Option Waiting)

/-- Reads a flag by its name, from behind the dashes. -/
def namedFlag (flags : List Flag) (arg : String) : Reading :=
  let (name, value) := arg.toList.span (· != '=')
  if name.isEmpty || name.head? == some '-' then .error (.noName ("--" ++ arg))
  else
    let name := String.ofList name
    match flags.find? (·.name == name) with
    | none => .error (.unknown name)
    | some f =>
      match value with
      | _ :: value => do return ([← f.set (String.ofList value)], none)
      | [] =>
        if f.isSwitch then .ok ([⟨f.name, "true"⟩], none)
        else .ok ([], some ⟨f, .valueMissing name⟩)

/-- The character whose code is the first byte of a character. -/
def firstByte (c : Char) : Char :=
  let n := c.toNat
  if n < 0x80 then c
  else if n < 0x800 then Char.ofNat (0xC0 + n / 0x40)
  else if n < 0x10000 then Char.ofNat (0xE0 + n / 0x1000)
  else Char.ofNat (0xF0 + n / 0x40000)

/-- How an error shows the letter that a character starts with. A letter is one byte, and of the
character with that code the first byte is shown. -/
def shownLetter (c : Char) : Char :=
  firstByte (firstByte c)

/-- What the flags of a test runner start with, behind the dash. -/
def testMark : List Char := "test.".toList

/-- Reads a group of letters, from behind the dash. -/
def letterFlags (flags : List Flag) : List Char → Reading
  | [] => .ok ([], none)
  | c :: cs =>
    if testMark.isPrefixOf (c :: cs) then .ok ([], none)
    else match flags.find? (·.letter == some c) with
    | none => .error (.unknownLetter (shownLetter c) (String.ofList (c :: cs)))
    | some f =>
      if cs.head? == some '=' && 2 ≤ cs.length then do
        return ([← f.set (String.ofList cs.tail)], none)
      else if f.isSwitch then do
        let (settings, waiting) ← letterFlags flags cs
        return (⟨f.name, "true"⟩ :: settings, waiting)
      else if cs.isEmpty then .ok ([], some ⟨f, .letterValueMissing c (String.ofList (c :: cs))⟩)
      else do return ([← f.set (String.ofList cs)], none)

/-- Reads arguments; `waiting` is a flag whose value comes next. -/
def readArguments (flags : List Flag) : Option Waiting → List String → Except FlagError Arguments
  | none, [] => .ok {}
  | some w, [] => .error w.error
  | some w, arg :: args => do
    let setting ← w.flag.set arg
    let rest ← readArguments flags none args
    return { rest with settings := setting :: rest.settings }
  | none, arg :: args =>
    match arg.toList with
    | ['-', '-'] => .ok { words := args }
    | '-' :: '-' :: name => do
      let (settings, waiting) ← namedFlag flags (String.ofList name)
      let rest ← readArguments flags waiting args
      return { rest with settings := settings ++ rest.settings }
    | '-' :: c :: cs => do
      let (settings, waiting) ← letterFlags flags (c :: cs)
      let rest ← readArguments flags waiting args
      return { rest with settings := settings ++ rest.settings }
    | _ => do
      let rest ← readArguments flags none args
      return { rest with words := arg :: rest.words }

end SingleAssignment.Command
