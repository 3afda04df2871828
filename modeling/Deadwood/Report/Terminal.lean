/-
  Findings for people: grouped by file, with a summary.

  Files come in the order of their paths, and of a path with several spellings the first one is
  shown.  Inside a file the findings stay in their order.
-/
import Deadwood.Finding
import Deadwood.Report.Style
import Deadwood.SortedMap

namespace Deadwood.Report.Terminal

/-- The findings of a file, under the first spelling of its path. -/
structure Group where
  path : Path
  findings : List Finding

/-- Enter a finding into the group of its file. -/
def enter (groups : SortedMap (List Component) Group) (f : Finding) :
    SortedMap (List Component) Group :=
  groups.alter f.location.file.components fun
    | some group => some { group with findings := group.findings ++ [f] }
    | none => some ⟨f.location.file, [f]⟩

/-- The findings by file. -/
def groups (fs : List Finding) : List Group := (fs.foldl enter ∅).values

/-- The style of a severity. -/
def colourOf : Severity → Colour
  | .error => .red
  | .warning => .yellow
  | .info => .blue

/-- The line of a finding. -/
def line (colours : Bool) (f : Finding) : String :=
  let place := Style.faint.apply colours s!"{f.location.line}:{f.location.column}"
  let severity := (Style.strong (colourOf f.severity)).apply colours f.severity.label
  let code := Style.faint.apply colours f.issue.code
  s!"  {place} {severity} [{code}] {f.message}\n"

/-- The lines of a file. -/
def fileLines (colours : Bool) (group : Group) : String :=
  (Style.strong .cyan).apply colours group.path.text ++ "\n" ++
    String.join (group.findings.map (line colours)) ++ "\n"

/-- How many findings there are, in words for a severity. -/
def countText (severity : Severity) (count : Nat) : String :=
  match severity with
  | .error => s!"{count} errors"
  | .warning => s!"{count} warnings"
  | .info => s!"{count} info"

/-- The numbers of findings by severity, the gravest first; severities without findings are left
out. -/
def severityParts (colours : Bool) (fs : List Finding) : List String :=
  [Severity.error, .warning, .info].filterMap fun s =>
    let count := fs.countP (·.severity == s)
    if count = 0 then none
    else some ((Style.coloured (colourOf s)).apply colours (countText s count))

/-- The numbers of findings by issue, a line for each issue with findings. -/
def issueLines (colours : Bool) (fs : List Finding) : List String :=
  Issue.all.filterMap fun issue =>
    let count := fs.countP (·.issue == issue)
    if count = 0 then none
    else some s!"  {Style.faint.apply colours issue.code} {issue.title}: {count}\n"

/-- The line between the findings and the summary. -/
def rule (colours : Bool) : String :=
  Style.faint.apply colours (String.ofList (List.replicate 60 '─'))

/-- The summary. -/
def summary (colours : Bool) (fs : List Finding) : String :=
  rule colours ++ "\nSummary: " ++ String.intercalate ", " (severityParts colours fs) ++ "\n" ++
    String.join (issueLines colours fs) ++ "\n"

/-- The report. -/
def render (colours : Bool) (fs : List Finding) : String :=
  if fs.isEmpty then (Style.strong .green).apply colours "No dead code found!" ++ "\n"
  else
    "\n" ++ (Style.strong .yellow).apply colours s!"Found {fs.length} dead code issues:" ++
      "\n\n" ++ String.join ((groups fs).map (fileLines colours)) ++ summary colours fs

end Deadwood.Report.Terminal
