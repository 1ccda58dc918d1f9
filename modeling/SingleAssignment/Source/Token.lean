import SingleAssignment.Source.Position
import SingleAssignment.Text.Quoted

/-!
# Tokens

A token is a keyword, a symbol, a number or an identifier; the end of the text and a lexical fault
are tokens too, so that each of them has a position. The spelling of a keyword or a symbol is fixed;
`Kind.name` names the kind of any token in messages.
-/

namespace SingleAssignment.Source

/-- The reserved words. -/
inductive Keyword where
  | mainWord | varWord | arrayWord | letWord | callWord | ifWord | thenWord | elseWord | fiWord
  | whileWord | doWord | odWord | returnWord | functionWord | procedureWord | voidWord
  deriving DecidableEq, Repr, Inhabited

namespace Keyword

/-- The reserved words, in the order of their codes. -/
def all : List Keyword :=
  [.mainWord, .varWord, .arrayWord, .letWord, .callWord, .ifWord, .thenWord, .elseWord, .fiWord,
    .whileWord, .doWord, .odWord, .returnWord, .functionWord, .procedureWord, .voidWord]

/-- How a reserved word is written. -/
def spelling : Keyword → String
  | mainWord => "main"
  | varWord => "var"
  | arrayWord => "array"
  | letWord => "let"
  | callWord => "call"
  | ifWord => "if"
  | thenWord => "then"
  | elseWord => "else"
  | fiWord => "fi"
  | whileWord => "while"
  | doWord => "do"
  | odWord => "od"
  | returnWord => "return"
  | functionWord => "function"
  | procedureWord => "procedure"
  | voidWord => "void"

/-- The reserved word with this spelling. -/
def ofSpelling? (s : String) : Option Keyword :=
  all.find? (·.spelling == s)

end Keyword

/-- Operators and delimiters. -/
inductive Symbol where
  | plus | minus | star | slash
  | equal | notEqual | less | lessEqual | greater | greaterEqual | becomes
  | leftParen | rightParen | leftBracket | rightBracket | leftBrace | rightBrace
  | comma | semicolon | period
  deriving DecidableEq, Repr, Inhabited

namespace Symbol

/-- Operators and delimiters, in the order of their codes. -/
def all : List Symbol :=
  [.plus, .minus, .star, .slash, .equal, .notEqual, .less, .lessEqual, .greater, .greaterEqual,
    .becomes, .leftParen, .rightParen, .leftBracket, .rightBracket, .leftBrace, .rightBrace,
    .comma, .semicolon, .period]

/-- How an operator or delimiter is written. -/
def spelling : Symbol → String
  | plus => "+"
  | minus => "-"
  | star => "*"
  | slash => "/"
  | equal => "=="
  | notEqual => "!="
  | less => "<"
  | lessEqual => "<="
  | greater => ">"
  | greaterEqual => ">="
  | becomes => "<-"
  | leftParen => "("
  | rightParen => ")"
  | leftBracket => "["
  | rightBracket => "]"
  | leftBrace => "\x7b"
  | rightBrace => "\x7d"
  | comma => ","
  | semicolon => ";"
  | period => "."

end Symbol

/-- What is wrong with a text that is no token. -/
inductive LexicalFault where
  /-- An equals sign alone. -/
  | loneEquals
  /-- An exclamation mark alone. -/
  | loneBang
  /-- A character that starts no token. -/
  | unexpected (c : Char)
  deriving DecidableEq, Repr, Inhabited

/-- The text of a lexical fault. -/
def LexicalFault.message : LexicalFault → String
  | loneEquals => "'=' is not an operator, did you mean '==' or '<-'"
  | loneBang => "'!' must be followed by '='"
  | unexpected c => "unexpected character: ".push c

/-- What a token is. -/
inductive Token.Kind where
  | endOfText
  | fault (f : LexicalFault)
  | number (digits : String)
  | identifier (name : String)
  | keyword (k : Keyword)
  | symbol (s : Symbol)
  deriving DecidableEq, Repr, Inhabited

/-- A token and the position of its first character. -/
structure Token where
  kind : Token.Kind
  pos : Position
  deriving DecidableEq, Repr, Inhabited

namespace Token

namespace Kind

/-- What messages call a token of this kind. -/
def name : Kind → String
  | endOfText => "EOF"
  | fault _ => "ERROR"
  | number _ => "number"
  | identifier _ => "identifier"
  | keyword k => k.spelling
  | symbol s => s.spelling

/-- Whether the token is a reserved word. -/
def isKeyword : Kind → Bool
  | keyword _ => true
  | _ => false

/-- The text of the token; of a fault, its message. -/
def lexeme : Kind → String
  | endOfText => ""
  | fault f => f.message
  | number digits => digits
  | identifier name => name
  | keyword k => k.spelling
  | symbol s => s.spelling

/-- Whether a list of tokens ends with this one. -/
def isLast : Kind → Bool
  | endOfText | fault _ => true
  | _ => false

/-- A token of each kind, in the order of their codes; texts are left empty. -/
def samples : List Kind :=
  [endOfText, fault .loneEquals, number "", identifier ""] ++ Keyword.all.map keyword ++
    Symbol.all.map symbol

/-- A token of the kind with code `n`. -/
def ofCode? (n : Int) : Option Kind :=
  if 0 ≤ n then samples[n.toNat]? else none

/-- The name of the kind with code `n`. -/
def nameOfCode (n : Int) : String :=
  match ofCode? n with
  | some k => k.name
  | none => s!"token({n})"

end Kind

/-- The text of the token; of a fault, its message. -/
def lexeme (t : Token) : String :=
  t.kind.lexeme

/-- The token as a list of tokens shows it. -/
def text (t : Token) : String :=
  let head := s!"{t.pos.text} {t.kind.name}"
  match t.kind with
  | .number _ | .identifier _ | .fault _ => s!"{head} {Text.quote t.lexeme}"
  | _ => head

end Token

end SingleAssignment.Source
