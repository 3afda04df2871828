/-
  The program.

  It reads the files that a request looks at, lets the library do the work, and prints or saves the
  report.  It ends with 0 when it has done what was asked, with 1 when it could not, and with 2 when
  its arguments are wrong.
-/
import Deadwood.CommandLine.Run
import Deadwood.Report.Elapsed

namespace Deadwood.CommandLine

/-- What stands at a path of the disk. -/
def entryOnDisk (path : Path) : IO Entry := do
  try
    return .file (← IO.FS.readFile path.text)
  catch _ =>
    try
      discard (IO.FS.realPath path.text)
      return .directory
    catch _ => return .missing

/-- What stands at some paths of the disk; every other path is missing. -/
def lookOnDisk (paths : List Path) : IO (Path → Entry) := do
  let found ← paths.mapM fun p => return (p, ← entryOnDisk p)
  return fun p => (found.lookup p).getD .missing

/-- Deliver a report. -/
def deliver : Report.Delivery → IO UInt32
  | .print text => do
      IO.print text
      return 0
  | .save path text confirmation => do
      try
        IO.FS.writeFile path.text text
        IO.print confirmation
        return 0
      catch _ =>
        IO.eprintln (Report.writeFailure path)
        return 1

/-- Perform a request. -/
def Request.execute (r : Request) : IO UInt32 := do
  let start ← IO.monoNanosNow
  let colours ← (← IO.getStdout).isTty
  match r.perform (← lookOnDisk r.paths) colours with
  | .error cause =>
      IO.eprintln cause.message
      return 1
  | .ok (format, delivery) =>
      let status ← deliver delivery
      if status == 0 && !r.quiet && format == .terminal then
        let taken := Report.elapsedText ((← IO.monoNanosNow) - start)
        IO.println (Style.faint.apply colours s!"Analysis completed in {taken}")
      return status

end Deadwood.CommandLine

open Deadwood.CommandLine in
/-- The program. -/
def main (arguments : List String) : IO UInt32 := do
  match Request.ofArguments arguments with
  | .ok request => request.execute
  | .error .help =>
      IO.print helpText
      return 0
  | .error .version =>
      IO.print versionText
      return 0
  | .error .wrongUsage =>
      IO.eprintln usageText
      return 2
