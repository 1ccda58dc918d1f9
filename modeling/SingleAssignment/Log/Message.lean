import SingleAssignment.Log.Record
import SingleAssignment.Lowering.Basic

/-!
# The messages of the compiler

One function per message. Messages of the builder carry the attributes of the part of the compiler
that they come from.
-/

namespace SingleAssignment.Log

/-- A part of the compilation starts. -/
def phaseStarted (phase : String) : Record :=
  ⟨.info, "Starting compilation phase", [⟨"phase", .text phase⟩]⟩

/-- A part of the compilation is done. -/
def phaseCompleted (phase : String) : Record :=
  ⟨.info, "Completed compilation phase", [⟨"phase", .text phase⟩]⟩

/-- The tokens of a file were read. -/
def tokensRead (file : String) (count : Int) : Record :=
  ⟨.debug, "Lexing complete", [⟨"file", .text file⟩, ⟨"tokens", .int count⟩]⟩

/-- A program was finished. -/
def programFinished (file : String) (blocks insts : Int) : Record :=
  ⟨.debug, "SSA generation complete",
    [⟨"file", .text file⟩, ⟨"blocks", .int blocks⟩, ⟨"instructions", .int insts⟩]⟩

/-- A variable was given the value zero. -/
def implicitZero (var : String) (block : Int) : Record :=
  ⟨.warn, "Variable read before assignment, using implicit zero",
    [⟨"variable", .text var⟩, ⟨"block", .int block⟩]⟩

/-- A phi was placed or refilled. -/
def phiPlaced (join : Int) (var : String) (phi x y : Int) : Record :=
  ⟨.debug, "Phi placed",
    [⟨"join", .int join⟩, ⟨"variable", .text var⟩, ⟨"phi", .int phi⟩, ⟨"x", .int x⟩,
      ⟨"y", .int y⟩]⟩

/-- A phi was retired. -/
def phiRetired (join : Int) (var : String) (phi value : Int) : Record :=
  ⟨.debug, "Phi retired",
    [⟨"join", .int join⟩, ⟨"variable", .text var⟩, ⟨"phi", .int phi⟩, ⟨"value", .int value⟩]⟩

/-- The repair of a loop came to an end. -/
def loopRepaired (header blocks spliced rounds : Int) : Record :=
  ⟨.debug, "Loop fixup complete",
    [⟨"header", .int header⟩, ⟨"blocks", .int blocks⟩, ⟨"spliced", .int spliced⟩,
      ⟨"rounds", .int rounds⟩]⟩

/-- The repair of a loop was cut off. -/
def repairUnsettled (header rounds : Int) : Record :=
  ⟨.warn, "loop fixup did not converge", [⟨"header", .int header⟩, ⟨"rounds", .int rounds⟩]⟩

/-- A branch was pointed at its target. -/
def branchResolved (branch slot block target : Int) : Record :=
  ⟨.debug, "Branch target resolved",
    [⟨"branch", .int branch⟩, ⟨"slot", .int slot⟩, ⟨"block", .int block⟩, ⟨"target", .int target⟩]⟩

/-- A part of the compilation failed at a line of a file. -/
def compilationError (phase file : String) (line : Int) (message : String) : Record :=
  ⟨.error, "Compilation error",
    [⟨"phase", .text phase⟩, ⟨"file", .text file⟩, ⟨"line", .int line⟩,
      ⟨"message", .text message⟩]⟩

/-- A part of the compilation warns about a line of a file. -/
def compilationWarning (phase file : String) (line : Int) (message : String) : Record :=
  ⟨.warn, "Compilation warning",
    [⟨"phase", .text phase⟩, ⟨"file", .text file⟩, ⟨"line", .int line⟩,
      ⟨"message", .text message⟩]⟩

/-- The compiler was started. -/
def compilerStarted (args : List String) : Record :=
  ⟨.info, "smplc starting", [⟨"args", .list args⟩]⟩

/-- The compiler was started, and its arguments are not known. -/
def compilerStartedBare : Record :=
  ⟨.info, "smplc starting", [⟨"args", .noList⟩]⟩

/-- The compiler is done. -/
def compilerCompleted (success : Bool) : Record :=
  if success then ⟨.info, "Compilation successful", [⟨"duration", .elapsed⟩]⟩
  else ⟨.error, "Compilation failed", [⟨"duration", .elapsed⟩]⟩

/-- A file is compiled. -/
def fileStarted (file : String) : Record :=
  ⟨.info, "Processing file", [⟨"file", .text file⟩]⟩

/-- The lowering of a computation starts. -/
def loweringStarted (vars arrays statements : Int) : Record :=
  ⟨.debug, "Building SSA from AST",
    [⟨"vars", .int vars⟩, ⟨"arrays", .int arrays⟩, ⟨"statements", .int statements⟩]⟩

/-- The body of a computation could not be lowered. -/
def loweringFailed (r : Lowering.Report) (symbols : Lowering.Symbols) : Record :=
  ⟨.error, "Failed to build SSA", [⟨"error", .failure r.message (r.fullText symbols)⟩]⟩

/-- The record with attributes in front. -/
def Record.under (r : Record) (attrs : List Attr) : Record :=
  { r with attrs := attrs ++ r.attrs }

/-- The attribute of the messages that come from building single-assignment code. -/
def ssaComponent : List Attr := [⟨"component", .text "ssa"⟩]

/-- The message of what a builder reports. -/
def ofBuilder : Builder.Event → Record
  | .implicitZero var block => (implicitZero var block).under ssaComponent
  | .phiPlaced join var phi x y => (phiPlaced join var phi x y).under ssaComponent
  | .phiRetired join var phi value => (phiRetired join var phi value).under ssaComponent
  | .repairUnsettled header rounds => (repairUnsettled header rounds).under ssaComponent
  | .loopRepaired header blocks spliced rounds =>
    (loopRepaired header blocks spliced rounds).under ssaComponent
  | .branchResolved branch side target first =>
    (branchResolved branch side.index target first).under ssaComponent
  | .finished source blocks insts => programFinished source blocks insts

/-- The message of what lowering reports. -/
def ofLowering (symbols : Lowering.Symbols) : Lowering.Event → Record
  | .started vars arrays statements => (loweringStarted vars arrays statements).under ssaComponent
  | .builder e => ofBuilder e
  | .failed r => (loweringFailed r symbols).under ssaComponent

end SingleAssignment.Log
