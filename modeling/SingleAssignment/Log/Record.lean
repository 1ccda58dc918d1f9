import SingleAssignment.Text.Blank
import SingleAssignment.Text.Quoted

/-!
# Log records

A record has a level, a message and attributes. A log shows the records at or above its level, one
line each, as text or as JSON. A text value is quoted if it is empty or holds a character that would
make the line ambiguous.
-/

namespace SingleAssignment.Log

/-- How urgent a record is. -/
inductive Level where
  | debug
  | info
  | warn
  | error
  deriving DecidableEq, Repr, Inhabited

namespace Level

/-- The code of a level; more urgent levels have greater codes. -/
def code : Level → Int
  | debug => 0
  | info => 1
  | warn => 2
  | error => 3

/-- The level with a code; codes without one mean `info`. -/
def ofCode (n : Int) : Level :=
  match n with
  | 0 => debug
  | 2 => warn
  | 3 => error
  | _ => info

/-- The level with a name; names without one mean `info`. -/
def ofName (s : String) : Level :=
  match s with
  | "debug" => debug
  | "warn" | "warning" => warn
  | "error" => error
  | _ => info

/-- How a line shows a level. -/
def label : Level → String
  | debug => "DEBUG"
  | info => "INFO"
  | warn => "WARN"
  | error => "ERROR"

end Level

/-- The value of an attribute. -/
inductive Value where
  | text (s : String)
  | int (n : Int)
  | flag (b : Bool)
  | list (items : List String)
  /-- A list that was not given. -/
  | noList
  /-- An error: its message, and its full text for a log of text. -/
  | failure (message full : String)
  /-- The time that has passed since the start, known when the line is written. -/
  | elapsed
  deriving DecidableEq, Repr, Inhabited

/-- An attribute of a record. -/
structure Attr where
  key : String
  value : Value
  deriving DecidableEq, Repr, Inhabited

/-- One entry of a log. -/
structure Record where
  level : Level
  message : String
  attrs : List Attr := []
  deriving DecidableEq, Repr, Inhabited

/-- The key of a value that came without one. -/
def missingKey : String := "!BADKEY"

/-- Attributes from a list in which each text is the key of the value behind it. A value in the
place of a key, or a key without a value, is an attribute without key. -/
def attrsOf : List Value → List Attr
  | [] => []
  | [.text s] => [⟨missingKey, .text s⟩]
  | .text key :: value :: rest => ⟨key, value⟩ :: attrsOf rest
  | value :: rest => ⟨missingKey, value⟩ :: attrsOf rest

/-- How a log writes its lines. -/
inductive Format where
  | text
  | json
  deriving DecidableEq, Repr, Inhabited

/-- The format with a name; names without one mean text. -/
def Format.ofName (s : String) : Format :=
  if s = "json" then .json else .text

/-- What is known when a line is written. -/
structure Clock where
  /-- The time of day, if lines show it. -/
  stamp : Option String := none
  /-- The time since the start. -/
  elapsed : String := ""

/-! ## Lines of text -/

/-- Whether a character in a key or a value makes it quoted. -/
def needsQuotes (c : Char) : Bool :=
  if c.toNat < 0x80 then c == ' ' || c == '=' || c == '"' || c.toNat < 0x20
  else c == '�' || Text.isBlank c || !Text.isPrintable c

/-- A key or a value, quoted if it has to be. -/
def quoteIfNeeded (s : String) : String :=
  if s.isEmpty || s.toList.any needsQuotes then Text.quote s else s

/-- A value in a line of text, before quoting. -/
def Value.plain (clock : Clock) : Value → String
  | text s => s
  | int n => toString n
  | flag b => if b then "true" else "false"
  | list items => "[" ++ " ".intercalate items ++ "]"
  | noList => "[]"
  | failure _ full => full
  | elapsed => clock.elapsed

/-- A record as a line of text. -/
def Record.textLine (clock : Clock) (r : Record) : String :=
  let stamp := match clock.stamp with
    | some t => [⟨"time", .text t⟩]
    | none => []
  let attrs : List Attr :=
    stamp ++ [⟨"level", .text r.level.label⟩, ⟨"msg", .text r.message⟩] ++ r.attrs
  " ".intercalate
    (attrs.map fun a => quoteIfNeeded a.key ++ "=" ++ quoteIfNeeded (a.value.plain clock))

/-! ## Lines of JSON -/

/-- Control characters with the letter of their short form. -/
def jsonLetters : List (Nat × Char) := [(0x09, 't'), (0x0A, 'n'), (0x0D, 'r')]

/-- Control characters with the letter of their short form inside a list. -/
def jsonListLetters : List (Nat × Char) := (0x08, 'b') :: (0x0C, 'f') :: jsonLetters

/-- A character inside a JSON string. -/
def jsonChar (letters : List (Nat × Char)) (c : Char) : List Char :=
  let n := c.toNat
  if c == '"' || c == '\\' then ['\\', c]
  else match letters.lookup n with
    | some letter => ['\\', letter]
    | none =>
      if n < 0x20 || n == 0x2028 || n == 0x2029 then '\\' :: 'u' :: Text.hexDigits 4 n else [c]

/-- A JSON string. -/
def jsonQuote (letters : List (Nat × Char)) (s : String) : String :=
  String.ofList ('"' :: s.toList.flatMap (jsonChar letters) ++ ['"'])

/-- A key or a text value as a JSON string. -/
def jsonString (s : String) : String :=
  jsonQuote jsonLetters s

/-- A value in a line of JSON. -/
def Value.json (clock : Clock) : Value → String
  | text s => jsonString s
  | int n => toString n
  | flag b => if b then "true" else "false"
  | list items => "[" ++ ",".intercalate (items.map (jsonQuote jsonListLetters)) ++ "]"
  | noList => "null"
  | failure message _ => jsonString message
  | elapsed => jsonString clock.elapsed

/-- A record as a line of JSON. -/
def Record.jsonLine (clock : Clock) (r : Record) : String :=
  let stamp := match clock.stamp with
    | some t => [⟨"time", .text t⟩]
    | none => []
  let attrs : List Attr :=
    stamp ++ [⟨"level", .text r.level.label⟩, ⟨"msg", .text r.message⟩] ++ r.attrs
  "\x7b" ++ ",".intercalate
    (attrs.map fun a => jsonString a.key ++ ":" ++ a.value.json clock) ++ "\x7d"

/-! ## Logs -/

/-- Which records a log shows, and how. -/
structure Settings where
  level : Level := .info
  format : Format := .text
  deriving DecidableEq, Repr, Inhabited

/-- Whether a log shows a record. -/
def Settings.shows (s : Settings) (r : Record) : Bool :=
  s.level.code ≤ r.level.code

/-- A record as a line of a log. -/
def Settings.line (s : Settings) (clock : Clock) (r : Record) : String :=
  match s.format with
  | .text => r.textLine clock
  | .json => r.jsonLine clock

/-- The lines of the records that a log shows. -/
def Settings.lines (s : Settings) (clock : Clock) (rs : List Record) : List String :=
  (rs.filter s.shows).map (s.line clock)

/-- The text of a log: its lines, each with a line break behind it. -/
def Settings.text (s : Settings) (clock : Clock) (rs : List Record) : String :=
  String.join ((s.lines clock rs).map (· ++ "\n"))

end SingleAssignment.Log
