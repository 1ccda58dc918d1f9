import SingleAssignment.Command.Run
import SingleAssignment.Text.Utf8

/-!
# The program

Reads the files that the arguments name, runs the request on them, and prints and writes what it
leaves.
-/

namespace SingleAssignment.Command

/-- The files that a request reads. -/
def Request.sources : Request → List String
  | compile options path => [options.config, path].filter (· != "")
  | tokens path => [path]
  | version | help => []

/-- Reads a file of the system. -/
def readFile (path : String) : IO (Except FileError (List Char)) := do
  match Place.ofPath path with
  | .tooLong => return .error ⟨.opening, path, .tooLong⟩
  | .invalid => return .error ⟨.opening, path, .invalid⟩
  | _ =>
    try
      let bytes ← IO.FS.readBinFile path
      return .ok (Text.decodeUtf8 (bytes.toList.map (·.toNat)))
    catch
      | .noFileOrDirectory .. => return .error ⟨.opening, path, .missing⟩
      | .inappropriateType .. => return .error ⟨.reading, path, .isDirectory⟩
      | _ => return .error ⟨.opening, path, .notDirectory⟩

/-- The files that were read beforehand; whether a file can be written shows when it is. -/
def filesOf (texts : List (String × Except FileError (List Char))) : Files where
  read path := (texts.lookup path).getD (.error ⟨.opening, path, .missing⟩)
  canWrite _ := .ok ()
  same := sameEntry

/-- Writes what a run leaves. -/
def Outcome.perform (o : Outcome) (clock : Log.Clock) : IO UInt32 := do
  if let some path := o.logFile then
    let log ← IO.FS.Handle.mk path .append
    log.putStr (o.logText clock)
  IO.print o.output
  if let some (path, text) := o.written then
    IO.FS.writeFile path text
  IO.eprint (o.errorOutput clock)
  return if o.error.isSome then 1 else 0

end SingleAssignment.Command

open SingleAssignment.Command in
/-- The command line. -/
def main (args : List String) : IO UInt32 := do
  let start ← IO.monoMsNow
  let paths := match Request.ofArgs args with
    | .ok request => request.sources
    | .error _ => []
  let texts ← paths.mapM fun path => do return (path, ← readFile path)
  let outcome := run {} {} (fun _ => filesOf texts) args
  let elapsed := (← IO.monoMsNow) - start
  try
    outcome.perform { elapsed := s!"{elapsed}ms" }
  catch e =>
    IO.eprintln s!"Error: {e}"
    return 1
