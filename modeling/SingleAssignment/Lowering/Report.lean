import SingleAssignment.Builder.Error
import SingleAssignment.Source.Tree

/-!
# Reports of failed lowering

Lowering fails with a report: what is wrong, and the trail of sites from the place where it arose
out to the whole program. An element access adds its position on the way out, with a trail of its
own from there.
-/

namespace SingleAssignment.Lowering

open Source

/-- A place in the rules of lowering from which a part of the program is lowered or a builder is
called. -/
inductive Site where
  | program
  | sequence
  | assignedValue
  | assignment
  | callStatement
  | ifStatement
  | loopStatement
  | statementHole
  | targetIndices
  | storing
  | targetName
  | arrayAsScalar
  | undeclaredScalar
  | ifCondition
  | thenPart
  | elsePart
  | loopCondition
  | loopBody
  | leftComparand
  | rightComparand
  | conditionBranch
  | elementIndices
  | loading
  | elementPosition
  | readName
  | leftOperand
  | rightOperand
  | operation
  | callExpression
  | expressionHole
  | index
  | argument
  | unknownFunction
  | literalOperand
  | arrayTable
  | arrayAccess
  | elementAddress
  | loadAccess
  | loadAddress
  | storeAccess
  | storeAddress
  deriving DecidableEq, Repr, Inhabited

/-- What is wrong with a program. -/
inductive Fault where
  | builder (e : Builder.Error)
  | arrayAsScalar (pos : Position) (name : String)
  | undeclared (pos : Position) (name : String)
  | statementHole
  | expressionHole
  | unknownFunction (pos : Position) (fn : Builtin)
  deriving DecidableEq, Repr, Inhabited

namespace Fault

/-- The sort of a fault. -/
def kind : Fault → Builder.ErrorKind
  | builder e => e.kind
  | arrayAsScalar .. => .invalidArgument
  | undeclared .. => .notFound
  | statementHole | expressionHole | unknownFunction .. => .other

/-- What is wrong, without the sort. -/
def detail : Fault → String
  | builder e => e.detail
  | arrayAsScalar pos name => s!"{pos.text}: array {name} used without indices"
  | undeclared pos name => s!"{pos.text}: undeclared variable {name}"
  | statementHole => "unsupported statement type: <nil>"
  | expressionHole => "unsupported expression type: <nil>"
  | unknownFunction pos fn => s!"{pos.text}: unsupported function {fn.name}"

end Fault

/-- Why and where lowering failed. -/
structure Report where
  fault : Fault
  /-- From the place of the fault outwards. -/
  trail : List Site := []
  /-- The position of the access that failed, and the trail from there outwards. -/
  position : Option (Position × List Site) := none
  deriving DecidableEq, Repr, Inhabited

namespace Report

/-- The sort of the fault. -/
def kind (r : Report) : Builder.ErrorKind :=
  r.fault.kind

/-- The text of a report. -/
def message (r : Report) : String :=
  let body := r.fault.detail ++ r.kind.suffix
  match r.position with
  | some (pos, _) => s!"{pos.text}: {body}"
  | none => body

/-- The report one site further out. -/
def passing (r : Report) (site : Site) : Report :=
  { r with
    trail := r.trail ++ [site]
    position := r.position.map fun (pos, trail) => (pos, trail ++ [site]) }

/-- The report with the position of an access, added at a site. -/
def located (r : Report) (pos : Position) (site : Site) : Report :=
  { r with position := some (pos, [site]) }

end Report

/-! ## Trails with their symbols -/

/-- Where a site stands in the text of a program that runs it. -/
structure Symbol where
  name : String
  file : String
  line : Nat
  deriving DecidableEq, Repr, Inhabited

/-- What a running program knows about its own text: where a site stands, and where lowering was
called from. -/
structure Symbols where
  site : Site → Option Symbol := fun _ => none
  callers : List Symbol := []

/-- The number of places that a trail shows at most. -/
def trailDepth : Nat := 32

namespace Symbols

/-- One place of a trail. -/
def frame (y : Symbol) : String :=
  s!"\n{y.name}\n\t{y.file}:{y.line}"

/-- The known places of a trail, with what called lowering behind them. -/
def trail (t : Symbols) (sites : List Site) : String :=
  String.join (((sites.filterMap t.site ++ t.callers).take trailDepth).map frame)

end Symbols

/-- The text of a report with its trails. -/
def Report.fullText (r : Report) (t : Symbols) : String :=
  let sort := match r.kind.text? with
    | some text => text ++ "\n"
    | none => ""
  let inner := sort ++ r.fault.detail ++ t.trail r.trail
  match r.position with
  | some (pos, trail) => s!"{inner}\n{pos.text}" ++ t.trail trail
  | none => inner

end SingleAssignment.Lowering
