/-
  What the program does with its arguments.

  A run reads settings and a document, builds the graph, analyses it and makes a report.  Files are
  looked up through a function, so a run is a value of what the files hold: `look` may be a tree in
  memory, or what was read from the disk beforehand at the paths that `Request.paths` lists.
-/
import Deadwood.CommandLine.Arguments
import Deadwood.Document.Codec
import Deadwood.Ingest.Merge
import Deadwood.Json.Reader
import Deadwood.Pipeline
import Deadwood.Settings.Load

namespace Deadwood.CommandLine

/-- Why a run fails. -/
inductive Failure where
  | settings (cause : Settings.LoadError)
  | unknownFormat (name : String)
  | unreadableDocument (path : Path)
  | malformedDocument (path : Path)
  | analysis (cause : PassFailure)
  deriving DecidableEq, Repr

/-- The message of a failure. -/
def Failure.message : Failure → String
  | settings cause => cause.message
  | unknownFormat name =>
      s!"Invalid report.format in configuration: {Report.Format.unknownMessage name}"
  | unreadableDocument path => s!"Failed to read graph document: {path.text}"
  | malformedDocument path => s!"Failed to parse graph document: {path.text}"
  | analysis cause => cause.message

namespace Request

/-- The directory whose default files hold the settings. -/
def root (r : Request) : Path := r.input.parent?.getD ⟨"."⟩

/-- The paths that a run looks at. -/
def paths (r : Request) : List Path :=
  r.input :: (match r.config with
    | some path => [path]
    | none => Settings.defaultPaths r.root)

/-- What the command line adds to settings. -/
def adjust (r : Request) (s : Settings) : Settings := { s with
    retainPatterns := s.retainPatterns ++ r.retain
    retainPublic := s.retainPublic || r.retainPublic
    retainObjcAccessible := s.retainObjcAccessible || r.retainObjcAccessible }

/-- The settings of a run. -/
def settings (r : Request) (look : Path → Entry) : Except Settings.LoadError Settings := do
  let s ← match r.config with
    | some path => Settings.load look path
    | none => Settings.loadDefault look r.root
  return r.adjust s

/-- The format of the report of a run. -/
def reportFormat (r : Request) (s : Settings) : Except Failure Report.Format :=
  match r.format.or (Report.Format.ofName? s.report.format) with
  | some f => .ok f
  | none => .error (.unknownFormat s.report.format)

/-- Read the document to analyse. -/
def document (r : Request) (look : Path → Entry) : Except Failure Document :=
  match look r.input with
  | .file text =>
      match (Json.parse? text).bind Document.ofJson? with
      | some d => .ok d
      | none => .error (.malformedDocument r.input)
  | _ => .error (.unreadableDocument r.input)

/-- Analyse a document. -/
def findings (s : Settings) (d : Document) : Except Failure (List Finding) :=
  let run := analyse s (Graph.ofDocument d).1
  match run.failure with
  | some cause => .error (.analysis cause)
  | none => .ok (Finding.collect s run.graph)

/-- Perform a run: the report to deliver, in its format. -/
def perform (r : Request) (look : Path → Entry) (colours : Bool) :
    Except Failure (Report.Format × Report.Delivery) := do
  let s ← (r.settings look).mapError .settings
  let format ← r.reportFormat s
  let found ← findings s (← r.document look)
  return (format, Report.deliver format colours r.output found)

end Request

/-- What the program says about its version. -/
def versionText : String := "swiftdeadcode 0.4.0\n"

/-- What the program says about wrong arguments. -/
def usageText : String :=
  "Usage: swiftdeadcode [OPTIONS] <INPUT>\n\nFor more information, try '--help'."

/-- What the program says about its use. -/
def helpText : String :=
"Dead code analysis core for Swift: graph normalization, reachability and redundancy analyses over index data

Usage: swiftdeadcode [OPTIONS] <INPUT>

Arguments:
  <INPUT>  Graph document produced by the indexing front end (JSON)

Options:
  -c, --config <CONFIG>         Path to configuration file
  -f, --format <FORMAT>         Output format [possible values: terminal, json]
  -o, --output <OUTPUT>         Output file (for json format)
  -r, --retain <RETAIN>         Patterns to retain - never report as dead (can be specified multiple times)
      --retain-public           Treat public and open declarations as entry points
      --retain-objc-accessible  Retain declarations reachable from the Objective-C runtime
  -v, --verbose                 Verbose output
  -q, --quiet                   Quiet mode - only output results
  -h, --help                    Print help
  -V, --version                 Print version
"

/-- What a run comes to. -/
inductive Outcome where
  /-- The arguments are wrong. -/
  | wrongUsage
  /-- Only a text was asked for. -/
  | inform (text : String)
  | failed (cause : Failure)
  | finished (delivery : Report.Delivery)
  deriving DecidableEq, Repr

/-- Run the program, in a directory that `look` shows and without colours. -/
def run (look : Path → Entry) (arguments : List String) : Outcome :=
  match Request.ofArguments arguments with
  | .error .wrongUsage => .wrongUsage
  | .error .help => .inform helpText
  | .error .version => .inform versionText
  | .ok request =>
      match request.perform look false with
      | .ok (_, delivery) => .finished delivery
      | .error cause => .failed cause

end Deadwood.CommandLine
