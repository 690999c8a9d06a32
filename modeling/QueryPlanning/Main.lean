import QueryPlanning.CommandLine

/-!
# The program

Finds the documents that the arguments name, runs, and prints. Bad arguments exit with 2 and a run
that fails exits with 1.
-/

namespace QueryPlanning.CommandLine

/-- Reads the file at a path. -/
def Document.load (path : String) : IO Document := do
  try
    return .text (← IO.FS.readFile path)
  catch
    | .noFileOrDirectory .. => return .missing
    | _ => return .unreadable

/-- Reads the plan; a dash stands for the standard input. -/
def Document.loadPlan (path : String) : IO Document := do
  if path ≠ "-" then Document.load path
  else
    try
      return .text (← (← IO.getStdin).readToEnd)
    catch
      | _ => return .unreadable

/-- The environment variables that override settings, as far as they are set. -/
def loadEnvironment : IO (List (String × String)) := do
  let values ← Config.overriding.mapM fun name ↦ do return (name, ← IO.getEnv name)
  return values.filterMap fun (name, value) ↦ value.map (name, ·)

/-- The cores that the operating system lists, and at least one. -/
def countCores : IO Nat := do
  match ← Document.load "/proc/cpuinfo" with
  | .text content =>
    let cores := (content.splitOn "\n").filter (·.startsWith "processor")
    return max 1 cores.length
  | _ => return 1

def usage : String :=
  "usage: query-planning [-c|--config FILE] -p|--plan FILE [-l|--log-level LEVEL]\n" ++
    "                      [-e|--explain-level LEVEL] [--json]"

/-- Writes what a report holds and returns the status to exit with. -/
def Report.write (r : Report) : IO UInt32 := do
  IO.print r.output
  if let some error := r.error then IO.eprintln error
  return r.status.toUInt32

end QueryPlanning.CommandLine

open QueryPlanning CommandLine

def main (arguments : List String) : IO UInt32 := do
  match Arguments.parse arguments with
  | none => Report.write { Report.misused with error := usage }
  | some a =>
    let outside : Surroundings := {
      config := ← Document.load a.config, plan := ← Document.loadPlan a.plan
      environment := ← loadEnvironment, cores := ← countCores }
    (Report.ofRun (run a outside)).write
