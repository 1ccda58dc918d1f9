import Mathlib.Logic.Function.Basic
import SingleAssignment.Source.Tree

/-!
# Running a syntax tree

A tree is run on a store, in which every variable and every element of an array is zero at first.
Numbers are words of 64 bits and wrap. The left operand comes before the right one, an assigned
value before the indices of its target. A run has no result where it divides by zero, uses an index
outside its array or an operator that is none, asks for the value of an output, or goes round a loop
more often than it may.
-/

namespace SingleAssignment

/-- What can be seen of a run: what it writes, and how each condition came out. -/
inductive Occurrence where
  | wrote (n : Int64)
  | newLine
  | decided (holds : Bool)
  deriving DecidableEq, Repr, Inhabited

namespace Source

/-- What a run has come to: the values of variables and of elements of arrays, the number of inputs
that were read, and what could be seen. -/
structure Store where
  vars : String → Int64 := fun _ => 0
  cells : String → List Int64 → Int64 := fun _ _ => 0
  consumed : Nat := 0
  trace : List Occurrence := []

namespace Store

/-- Something can be seen. -/
def note (σ : Store) (o : Occurrence) : Store :=
  { σ with trace := σ.trace ++ [o] }

/-- A variable gets a value. -/
def assign (σ : Store) (name : String) (n : Int64) : Store :=
  { σ with vars := Function.update σ.vars name n }

/-- An element of an array gets a value. -/
def put (σ : Store) (name : String) (indices : List Int64) (n : Int64) : Store :=
  { σ with cells := Function.update σ.cells name (Function.update (σ.cells name) indices n) }

end Store

/-- What an operator gives, if it gives anything. -/
def Operator.apply? : Operator → Int64 → Int64 → Option Int64
  | add, x, y => some (x + y)
  | sub, x, y => some (x - y)
  | mul, x, y => some (x * y)
  | div, x, y => if y = 0 then none else some (x / y)
  | other _, _, _ => none

/-- Whether a relation holds. -/
def Comparison.holds? : Comparison → Int64 → Int64 → Option Bool
  | equal, x, y => some (x = y)
  | notEqual, x, y => some (x ≠ y)
  | less, x, y => some (x < y)
  | lessEqual, x, y => some (x ≤ y)
  | greater, x, y => some (y < x)
  | greaterEqual, x, y => some (y ≤ x)
  | other _, _, _ => none

/-- Whether there is one index for each dimension, from zero to below its size. -/
def inBounds : List Int64 → List Int64 → Bool
  | [], [] => true
  | d :: dims, i :: indices => 0 ≤ i && i < d && inBounds dims indices
  | _, _ => false

/-- What a tree is run with: the declared arrays, the input, and how often a loop may go round. -/
structure World where
  arrays : List ArrayDecl
  input : Nat → Int64
  rounds : Nat

/-- Whether indices name an element of an array. -/
def World.isElement (r : World) (name : String) (indices : List Int64) : Bool :=
  r.arrays.any fun a => a.name == name && inBounds a.dims indices

/-- Reads a number of the input. -/
def World.read (r : World) (σ : Store) : Int64 × Store :=
  (r.input σ.consumed, { σ with consumed := σ.consumed + 1 })

mutual

/-- The value of an expression. -/
def evalExpr (r : World) : Expr → Store → Option (Int64 × Store)
  | .num n, σ => some (n, σ)
  | .element name [] _, σ => some (σ.vars name, σ)
  | .element name (e :: es) _, σ => do
    let (indices, σ) ← evalIndices r (e :: es) σ
    if r.isElement name indices then some (σ.cells name indices, σ) else none
  | .binary op left right, σ => do
    let (x, σ) ← evalExpr r left σ
    let (y, σ) ← evalExpr r right σ
    let n ← op.apply? x y
    some (n, σ)
  | .call .inputNum _ _, σ => some (r.read σ)
  | .call _ _ _, _ => none
  | .hole, _ => none

/-- The values of indices, from left to right. -/
def evalIndices (r : World) : List Expr → Store → Option (List Int64 × Store)
  | [], σ => some ([], σ)
  | e :: es, σ => do
    let (n, σ) ← evalExpr r e σ
    let (ns, σ) ← evalIndices r es σ
    some (n :: ns, σ)

end

/-- How a condition comes out. -/
def evalCondition (r : World) (cond : Relation) (σ : Store) : Option (Bool × Store) := do
  let (x, σ) ← evalExpr r cond.left σ
  let (y, σ) ← evalExpr r cond.right σ
  let holds ← cond.op.holds? x y
  some (holds, σ.note (.decided holds))

/-- Gives the target of an assignment a value. -/
def evalAssign (r : World) (d : Designator) (n : Int64) (σ : Store) : Option Store :=
  match d.indices with
  | [] => some (σ.assign d.name n)
  | e :: es => do
    let (indices, σ) ← evalIndices r (e :: es) σ
    if r.isElement d.name indices then some (σ.put d.name indices n) else none

/-- Calls a predefined function as a statement. Only the first argument counts, and only of an
output. -/
def evalCall (r : World) : Builtin → List Expr → Store → Option Store
  | .inputNum, _, σ => some (r.read σ).2
  | .outputNum, e :: _, σ => do
    let (n, σ) ← evalExpr r e σ
    some (σ.note (.wrote n))
  | .outputNewLine, _, σ => some (σ.note .newLine)
  | _, _, _ => none

/-- Goes round while a condition holds, as often as `n` times. -/
def evalLoop (cond : Store → Option (Bool × Store)) (body : Store → Option Store) :
    Nat → Store → Option Store
  | 0, _ => none
  | n + 1, σ => do
    let (holds, σ) ← cond σ
    if holds then (body σ).bind (evalLoop cond body n) else some σ

mutual

/-- Runs a statement. -/
def evalStmt (r : World) : Stmt → Store → Option Store
  | .assign target value _, σ => do
    let (n, σ) ← evalExpr r value σ
    evalAssign r target n σ
  | .call fn args _, σ => evalCall r fn args σ
  | .ifThen cond thenPart _, σ => do
    let (holds, σ) ← evalCondition r cond σ
    if holds then evalStmts r thenPart σ else some σ
  | .ifElse cond thenPart elsePart _, σ => do
    let (holds, σ) ← evalCondition r cond σ
    if holds then evalStmts r thenPart σ else evalStmts r elsePart σ
  | .loop cond body _, σ => evalLoop (evalCondition r cond) (evalStmts r body) r.rounds σ
  | .hole, _ => none

/-- Runs statements in order. -/
def evalStmts (r : World) : List Stmt → Store → Option Store
  | [], σ => some σ
  | s :: ss, σ => do
    let σ ← evalStmt r s σ
    evalStmts r ss σ

end

end Source

end SingleAssignment
