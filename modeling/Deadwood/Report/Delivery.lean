/-
  Findings for programs, and the delivery of reports.

  The report for programs is a JSON document with all findings in their order and their numbers by
  severity.  It is printed, or saved to a file; the report for people is always printed.
-/
import Deadwood.Json.Printer
import Deadwood.Report.Terminal

namespace Deadwood.Report

/-- The format of a report. -/
inductive Format where
  | terminal
  | json
  deriving DecidableEq, Repr

namespace Format

/-- The letters of ASCII in lower case. -/
def lower (text : String) : String := String.ofList (text.toList.map Char.toLower)

/-- The format of a name, in capitals or not. -/
def ofName? (name : String) : Option Format :=
  match lower name with
  | "terminal" | "text" => some terminal
  | "json" => some json
  | _ => none

/-- What is said about a name that no format has. -/
def unknownMessage (name : String) : String := s!"unknown report format '{lower name}'"

/-- The name of a format. -/
def title : Format → String
  | terminal => "Terminal"
  | json => "Json"

end Format

/-- A finding in the report for programs. -/
def findingJson (f : Finding) : Json := .obj [
    ("code", .str f.issue.code),
    ("kind", .str f.issue.label),
    ("severity", .str f.severity.label),
    ("message", .str f.message),
    ("file", .str f.location.file.text),
    ("line", .nat f.location.line),
    ("column", .nat f.location.column),
    ("name", .str f.name),
    ("declaration_kind", match f.kind with
      | some k => .str k.noun
      | none => .null)]

/-- The report for programs. -/
def document (fs : List Finding) : Json :=
  let count (s : Severity) : Json := .nat (fs.countP (·.severity == s))
  .obj [
    ("version", .str "1.0"),
    ("total_issues", .nat fs.length),
    ("issues", .arr (fs.map findingJson)),
    ("summary", .obj [
      ("errors", count .error),
      ("warnings", count .warning),
      ("infos", count .info)])]

/-- What to do with a report. -/
inductive Delivery where
  | print (text : String)
  /-- Write the text to a file and print the confirmation. -/
  | save (path : Path) (text confirmation : String)
  deriving DecidableEq, Repr

/-- Make a report. -/
def deliver (format : Format) (colours : Bool) (output : Option Path) (fs : List Finding) :
    Delivery :=
  match format, output with
  | .terminal, _ => .print (Terminal.render colours fs)
  | .json, none => .print ((document fs).pretty ++ "\n")
  | .json, some path =>
      .save path (document fs).pretty s!"Report written to: {path.text}\n"

/-- What is said when a report cannot be written. -/
def writeFailure (path : Path) : String := s!"Failed to write report to {path.text}"

end Deadwood.Report
