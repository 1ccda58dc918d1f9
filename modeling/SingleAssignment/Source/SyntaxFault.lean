import SingleAssignment.Source.Token

/-!
# Syntax errors

A syntax error is a position and what is wrong there. When the token at that position is itself a
lexical fault, that fault is the error.
-/

namespace SingleAssignment.Source

/-- What is wrong at a token. -/
inductive SyntaxFault where
  | lexical (fault : LexicalFault)
  /-- Another token has to stand here, after what `context` names. -/
  | expected (kind : Token.Kind) (context : Option String)
  | trailingInput
  | functionDeclared
  | dimensionNotPositive
  | redeclared (name : String)
  | strayReturn
  | expectedStatement (found : Token.Kind)
  | unknownFunction (name : String)
  | argumentCount (name : String) (takes given : Nat)
  | expectedRelation
  | expectedExpression (found : Token.Kind)
  | reservedName (word : String)
  | expectedIdentifier (found : Token.Kind)
  | expectedNumber (found : Token.Kind)
  | numberRange (digits : String)
  deriving DecidableEq, Repr, Inhabited

/-- The text of a fault. -/
def SyntaxFault.message : SyntaxFault → String
  | lexical f => f.message
  | expected k none => s!"expected '{k.name}'"
  | expected k (some context) => s!"expected '{k.name}' after {context}"
  | trailingInput => "unexpected input after end of program"
  | functionDeclared => "user-defined functions are not supported"
  | dimensionNotPositive => "array dimension must be positive"
  | redeclared name => s!"{name} is already declared"
  | strayReturn => "return is only valid in a function body"
  | expectedStatement k => s!"expected statement, found {k.name}"
  | unknownFunction name =>
    s!"unknown function {name}: user-defined functions are not supported"
  | argumentCount name takes given => s!"{name} takes {takes} argument(s), got {given}"
  | expectedRelation => "expected relational operator"
  | expectedExpression k => s!"expected expression, found {k.name}"
  | reservedName word => s!"keyword {Text.quote word} cannot be used as an identifier"
  | expectedIdentifier k => s!"expected identifier, found {k.name}"
  | expectedNumber k => s!"expected number, found {k.name}"
  | numberRange digits => s!"number out of range: {digits}"

/-- A fault and its position. -/
structure SyntaxError where
  pos : Position
  fault : SyntaxFault
  deriving DecidableEq, Repr, Inhabited

/-- The text of a syntax error. -/
def SyntaxError.message (e : SyntaxError) : String :=
  s!"{e.pos.text}: {e.fault.message}"

/-- The error that `fault` is at token `t`. -/
def SyntaxError.at (t : Token) (fault : SyntaxFault) : SyntaxError :=
  match t.kind with
  | .fault f => ⟨t.pos, .lexical f⟩
  | _ => ⟨t.pos, fault⟩

end SingleAssignment.Source
