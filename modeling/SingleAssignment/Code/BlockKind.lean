/-!
# Kinds of blocks

A block has a role in the structure of the program, and a block where two paths meet has a kind of
join. Codes outside the two lists are kept; a join with such a code is a join all the same.
-/

namespace SingleAssignment.Code

/-- The role of a block. -/
inductive BlockKind where
  | entry | main | thenPart | elsePart | join | loopHeader | loopBody | exit
  | other (code : Int)
  deriving DecidableEq, Repr, Inhabited

namespace BlockKind

/-- The roles, in the order of their codes. -/
def all : List BlockKind :=
  [entry, main, thenPart, elsePart, join, loopHeader, loopBody, exit]

/-- The role with a code. -/
def ofCode (n : Int) : BlockKind :=
  if 0 ≤ n then all.getD n.toNat (other n) else other n

/-- How a role is written. -/
def name : BlockKind → String
  | entry => "entry"
  | main => "main"
  | thenPart => "then"
  | elsePart => "else"
  | join => "join"
  | loopHeader => "loop-header"
  | loopBody => "loop-body"
  | exit => "exit"
  | other n => s!"kind({n})"

/-- The role with this name. -/
def ofName? (s : String) : Option BlockKind :=
  all.find? (·.name == s)

end BlockKind

/-- How two paths meet in a block. -/
inductive JoinKind where
  | none | ifThen | ifElse | loop
  | other (code : Int)
  deriving DecidableEq, Repr, Inhabited

namespace JoinKind

/-- The kinds of join, in the order of their codes. -/
def all : List JoinKind :=
  [none, ifThen, ifElse, loop]

/-- The kind of join with a code. -/
def ofCode (n : Int) : JoinKind :=
  if 0 ≤ n then all.getD n.toNat (other n) else other n

/-- How a kind of join is written. -/
def name : JoinKind → String
  | ifThen => "if-then"
  | ifElse => "if-else"
  | loop => "while"
  | none | other _ => "none"

/-- The kind of join with this name. -/
def ofName? (s : String) : Option JoinKind :=
  all.find? (·.name == s)

end JoinKind

end SingleAssignment.Code
