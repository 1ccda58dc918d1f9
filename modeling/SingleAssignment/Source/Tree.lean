import SingleAssignment.Source.Position

/-!
# Syntax trees

A computation declares variables and arrays and has a body of statements. Trees are also built by
hand: a hole stands for a statement or expression that is not there yet, and an operator, relation
or function may have a code outside the language. Reading a text produces neither.
-/

namespace SingleAssignment.Source

/-- Arithmetic operators. -/
inductive Operator where
  | add | sub | mul | div
  /-- No operator of the language. -/
  | other (code : Int)
  deriving DecidableEq, Repr, Inhabited

/-- Relations between two numbers. -/
inductive Comparison where
  | equal | notEqual | less | lessEqual | greater | greaterEqual
  /-- No relation of the language. -/
  | other (code : Int)
  deriving DecidableEq, Repr, Inhabited

/-- The predefined functions. -/
inductive Builtin where
  | inputNum | outputNum | outputNewLine
  /-- No function of the language. -/
  | other (code : Int)
  deriving DecidableEq, Repr, Inhabited

namespace Operator

/-- The operator with a code. -/
def ofCode (n : Int) : Operator :=
  match n with
  | 0 => add
  | 1 => sub
  | 2 => mul
  | 3 => div
  | _ => other n

end Operator

namespace Comparison

/-- The relations, in the order of their codes. -/
def all : List Comparison :=
  [equal, notEqual, less, lessEqual, greater, greaterEqual]

/-- The relation with a code. -/
def ofCode (n : Int) : Comparison :=
  if 0 ≤ n then all.getD n.toNat (other n) else other n

/-- How a relation is written. -/
def spelling? : Comparison → Option String
  | equal => some "=="
  | notEqual => some "!="
  | less => some "<"
  | lessEqual => some "<="
  | greater => some ">"
  | greaterEqual => some ">="
  | other _ => none

end Comparison

namespace Builtin

/-- The functions, in the order of their codes. -/
def all : List Builtin :=
  [inputNum, outputNum, outputNewLine]

/-- The function with a code. -/
def ofCode (n : Int) : Builtin :=
  if 0 ≤ n then all.getD n.toNat (other n) else other n

/-- The name of a function. -/
def name : Builtin → String
  | inputNum => "InputNum"
  | outputNum => "OutputNum"
  | outputNewLine => "OutputNewLine"
  | other n => s!"builtin({n})"

/-- The function with this name. -/
def ofName? (s : String) : Option Builtin :=
  all.find? (·.name == s)

/-- The number of arguments of a function. -/
def arity : Builtin → Nat
  | outputNum => 1
  | _ => 0

end Builtin

/-- Expressions. An element without indices is a variable. -/
inductive Expr where
  | num (value : Int64)
  | element (name : String) (indices : List Expr) (pos : Position)
  | binary (op : Operator) (left right : Expr)
  | call (fn : Builtin) (args : List Expr) (pos : Position)
  /-- An expression that is not there. -/
  | hole
  deriving Repr, Inhabited

/-- The target of an assignment: a variable, or an element of an array. -/
structure Designator where
  name : String
  indices : List Expr
  pos : Position
  deriving Repr, Inhabited

/-- Two expressions compared. -/
structure Relation where
  op : Comparison
  left : Expr
  right : Expr
  deriving Repr, Inhabited

/-- Statements. -/
inductive Stmt where
  | assign (target : Designator) (value : Expr) (pos : Position)
  | call (fn : Builtin) (args : List Expr) (pos : Position)
  | ifThen (cond : Relation) (thenPart : List Stmt) (pos : Position)
  | ifElse (cond : Relation) (thenPart elsePart : List Stmt) (pos : Position)
  | loop (cond : Relation) (body : List Stmt) (pos : Position)
  /-- A statement that is not there. -/
  | hole
  deriving Repr, Inhabited

/-- A declared variable. -/
structure VarDecl where
  name : String
  pos : Position
  deriving DecidableEq, Repr, Inhabited

/-- A declared array with the number of elements in each dimension. -/
structure ArrayDecl where
  name : String
  dims : List Int64
  pos : Position
  deriving DecidableEq, Inhabited

/-- A whole program. -/
structure Computation where
  vars : List VarDecl
  arrays : List ArrayDecl
  body : List Stmt
  deriving Inhabited

end SingleAssignment.Source
