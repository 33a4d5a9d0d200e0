import ClauseLearning.Command.Decide
import ClauseLearning.Command.Sweep

/-!
The program: its first argument names the command, the others are the command's own.
-/

namespace ClauseLearning

/-- The bytes of a file, if it can be read. -/
def readFile? (name : String) : IO (Option (List UInt8)) := do
  try return some (← IO.FS.readBinFile name).toList catch _ => return none

/-- Prints a report and gives its exit code. -/
def Command.Report.print (r : Command.Report) : IO UInt32 := do
  for line in r.output do IO.println line
  for line in r.complaint do IO.eprintln line
  return r.exitCode.toUInt32

/-- The command `sat`, which also says how long an answer took. -/
def Command.Decide.run (arguments : List String) : IO UInt32 := do
  match request arguments with
  | .error report => report.print
  | .ok request =>
    let start ← IO.monoMsNow
    let report := request.report (← readFile? request.input)
    let code ← report.print
    let milliseconds := (← IO.monoMsNow) - start
    if report.complaint.isNone then IO.println s!"c solved in {milliseconds}ms"
    return code

/-- The command `phase`. -/
def Command.Sweep.run (arguments : List String) : IO UInt32 :=
  match request arguments with
  | .error report => report.print
  | .ok request => request.report.print

end ClauseLearning

/-- Runs the command that the first argument names. -/
def main (arguments : List String) : IO UInt32 :=
  match arguments with
  | "sat" :: rest => ClauseLearning.Command.Decide.run rest
  | "phase" :: rest => ClauseLearning.Command.Sweep.run rest
  | _ => do
    IO.eprintln "usage: sat [OPTIONS] <INPUT> or phase [OPTIONS]"
    return 2
