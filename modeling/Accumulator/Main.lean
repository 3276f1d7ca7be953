/-
The program: reads its arguments, creates the output file if one is asked for, and shows the
outcome.
-/
import Accumulator.Execution

namespace Accumulator

/-- The threshold that a word of the environment names, if it names one. -/
def thresholdOf? : Option String → Option Level
  | some "info" => some .info
  | some "debug" => some .debug
  | some "trace" => some .trace
  | _ => none

/-- The wording of a failure of the file system. -/
def faultText (e : IO.Error) : String :=
  match e with
  | .noFileOrDirectory _ code details => s!"{details} (os error {code})"
  | .inappropriateType _ code details => s!"{details} (os error {code})"
  | .permissionDenied _ code details => s!"{details} (os error {code})"
  | .invalidArgument _ code details => s!"{details} (os error {code})"
  | .resourceExhausted _ code details => s!"{details} (os error {code})"
  | e => toString e

/-- Create an empty file, or say why it cannot be created. -/
def createFile (path : String) : IO (Except String Target) := do
  try
    IO.FS.writeFile path ""
    return .ok .file
  catch e => return .error (faultText e)

/-- Write the file of a run.  If that fails, the run is carried out again with a target that
fails. -/
def writeOut (request : Request) (execution : Execution) : IO Execution := do
  match execution.file with
  | none => return execution
  | some (path, contents) =>
    try
      let handle ← IO.FS.Handle.mk path .write
      handle.putStr contents
      handle.flush
      return execution
    catch e => return request.execute fun _ => .ok (.failing (faultText e))

end Accumulator

open Accumulator

def main (arguments : List String) : IO UInt32 := do
  let request := CommandLine.parse arguments
  let created ←
    match request with
    | .run invocation =>
      match invocation.destination? with
      | some path => createFile path
      | none => pure (.ok .file)
    | _ => pure (.ok .file)
  let execution ← writeOut request (request.execute fun _ => created)
  IO.print execution.stdout
  IO.eprint (execution.stderr (thresholdOf? (← IO.getEnv "RUST_LOG")))
  return execution.exitCode.toUInt32
