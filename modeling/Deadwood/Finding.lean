/-
  Findings: what an analysis has to say about the program.

  A finding has a location, a name, an issue, a severity and a message.  `collect` reads the
  findings off the marks and results that the passes left on the graph, leaves out excluded files,
  and lists them by location, code and name.
-/
import Deadwood.Graph.Query
import Deadwood.Settings.Basic

namespace Deadwood

open Std

/-- How much a finding matters. -/
inductive Severity where
  | info
  | warning
  | error
  deriving DecidableEq, Repr, Inhabited

namespace Severity

def all : List Severity := [info, warning, error]

/-- The word for a severity. -/
def label : Severity → String
  | info => "info"
  | warning => "warning"
  | error => "error"

/-- The severity of that word. -/
def ofLabel? (text : String) : Option Severity := all.find? fun s => s.label == text

end Severity

/-- What is wrong. -/
inductive Issue where
  | unused
  | assignOnly
  | unusedParameter
  | unusedImport
  | redundantProtocol
  | redundantPublic
  | redundantInternal
  | redundantFileprivate
  deriving DecidableEq, Repr, Inhabited

namespace Issue

def all : List Issue := [
    unused, assignOnly, unusedParameter, unusedImport, redundantProtocol, redundantPublic,
    redundantInternal, redundantFileprivate]

/-- The code of an issue. -/
def code : Issue → String
  | unused => "SD001"
  | assignOnly => "SD002"
  | unusedParameter => "SD003"
  | unusedImport => "SD004"
  | redundantProtocol => "SD005"
  | redundantPublic => "SD006"
  | redundantInternal => "SD007"
  | redundantFileprivate => "SD008"

/-- The name of an issue in summaries. -/
def title : Issue → String
  | unused => "Unused"
  | assignOnly => "AssignOnly"
  | unusedParameter => "UnusedParameter"
  | unusedImport => "UnusedImport"
  | redundantProtocol => "RedundantProtocol"
  | redundantPublic => "RedundantPublic"
  | redundantInternal => "RedundantInternal"
  | redundantFileprivate => "RedundantFilePrivate"

/-- The name of an issue in written reports. -/
def label : Issue → String
  | unused => "unused"
  | assignOnly => "assign_only"
  | unusedParameter => "unused_parameter"
  | unusedImport => "unused_import"
  | redundantProtocol => "redundant_protocol"
  | redundantPublic => "redundant_public"
  | redundantInternal => "redundant_internal"
  | redundantFileprivate => "redundant_fileprivate"

/-- How much an issue matters, unless something else is said. -/
def severity : Issue → Severity
  | unused | assignOnly | redundantProtocol => .warning
  | unusedParameter | unusedImport | redundantPublic | redundantInternal
  | redundantFileprivate => .info

/-- What is said about a declaration with an issue, unless something else is said. -/
def message (issue : Issue) (kind : Option Kind) (name : String) : String :=
  let noun := (kind.map Kind.noun).getD "declaration"
  match issue with
  | unused => s!"{noun} '{name}' is unused"
  | assignOnly => s!"{noun} '{name}' is assigned, but never used"
  | unusedParameter => s!"Parameter '{name}' is unused"
  | unusedImport => s!"Imported module '{name}' is unused"
  | redundantProtocol =>
      s!"Protocol '{name}' is redundant as it's never used as an existential type"
  | redundantPublic => s!"{noun} '{name}' is declared public, but not used outside its module"
  | redundantInternal => s!"{noun} '{name}' is declared internal, but not used outside its file"
  | redundantFileprivate =>
      s!"{noun} '{name}' is declared fileprivate, but not used outside its declaring type"

/-- The issue of a redundant tier; the narrowest tier and the widest one are never redundant. -/
def ofTier? : Tier → Option Issue
  | .publicTier => some redundantPublic
  | .internalTier => some redundantInternal
  | .fileprivateTier => some redundantFileprivate
  | .privateTier | .openTier => none

end Issue

/-- What an analysis has to say about one place. -/
structure Finding where
  location : Location
  /-- The name of the declaration or module. -/
  name : String
  /-- The kind of the declaration; none for an import. -/
  kind : Option Kind
  issue : Issue
  severity : Severity
  message : String
  deriving DecidableEq, Repr

namespace Finding

/-- A finding with the severity and the message that belong to its issue. -/
def of (location : Location) (name : String) (kind : Option Kind) (issue : Issue) : Finding :=
  ⟨location, name, kind, issue, issue.severity, issue.message kind name⟩

/-- A finding about a declaration. -/
def ofDeclaration (d : Declaration) (issue : Issue) : Finding :=
  of d.location d.nameText (some d.kind) issue

/-! ## Order -/

/-- What findings are listed by. -/
structure Key where
  place : Place
  code : String
  name : String
  deriving DecidableEq

instance : Ord Key :=
  ⟨compareLex (compareOn Key.place) (compareLex (compareOn Key.code) (compareOn Key.name))⟩
instance : TransOrd Key :=
  inferInstanceAs (TransCmp
    (compareLex (compareOn Key.place) (compareLex (compareOn Key.code) (compareOn Key.name))))

/-- The key of a finding. -/
def key (f : Finding) : Key := ⟨f.location.place, f.issue.code, f.name⟩

/-- Insert a finding in front of the first one that comes after it or is level with it. -/
def insertSorted (f : Finding) : List Finding → List Finding
  | [] => [f]
  | x :: xs => if (compare f.key x.key).isLE then f :: x :: xs else x :: insertSorted f xs

/-- Findings by location, code and name; findings that are level stay in their order. -/
def sort (fs : List Finding) : List Finding := fs.foldr insertSorted []

/-! ## Collection -/

/-- Kinds that are not reported as unused: something else decides about them. -/
def unreportedKinds : List Kind := [.localVariable, .parameter, .module, .genericParameter]

/-- Whether a declaration is one to be reported as unused. -/
def isReportable (g : Graph) (id : DeclId) (d : Declaration) : Bool :=
  !d.isImplicit && !d.kind.isAccessor && !d.kind.isExtension && !unreportedKinds.contains d.kind &&
    !g.isRetained id

/-- The unused declarations. -/
def unusedDeclarations (g : Graph) : List Finding :=
  g.unusedDeclarations.filterMap fun id => do
    let d ← g.declaration? id
    guard (isReportable g id d)
    return ofDeclaration d (if g.isMarked .assignOnly id then .assignOnly else .unused)

/-- The unused parameters of a function that neither a mark nor a directive keeps. -/
def parametersOf (g : Graph) (d : Declaration) : List Finding :=
  d.parameters.toList.filterMap fun p => do
    guard (!g.isRetained p && !g.isIgnored p)
    let parameter ← g.declaration? p
    return { ofDeclaration parameter .unusedParameter with
      message := s!"Parameter '{parameter.nameText}' of '{d.nameText}' is unused" }

/-- The unused parameters of used functions. -/
def unusedParameters (g : Graph) : List Finding :=
  (g.marks.used.toList.filter (!g.isIgnored ·)).flatMap fun id =>
    match g.declaration? id with
    | some d => parametersOf g d
    | none => []

/-- The unused imports. -/
def unusedImports (g : Graph) : List Finding :=
  g.unusedImports.toList.map fun i => of i.location i.module none .unusedImport

/-- The redundant protocols. -/
def redundantProtocols (g : Graph) : List Finding :=
  g.redundantProtocols.keys.filterMap fun id =>
    (g.declaration? id).map fun d => ofDeclaration d .redundantProtocol

/-- The redundant tiers. -/
def redundantTiers (g : Graph) : List Finding :=
  g.redundantAccess.entries.filterMap fun e => do
    let d ← g.declaration? e.1
    let issue ← Issue.ofTier? e.2.declared
    let finding := ofDeclaration d issue
    return { finding with message := s!"{finding.message}; it could be {e.2.suggested.label}" }

/-- The declarations that only a directive keeps from being reported. -/
def suppressedDeclarations (g : Graph) : List Finding :=
  (g.sortedDeclarations (g.marks.ignored.toList.filter fun id =>
    g.isRetained id && !g.isReferenced id)).filterMap fun id => do
      let d ← g.declaration? id
      guard (!d.isImplicit && !d.kind.isAccessor && !unreportedKinds.contains d.kind)
      let finding := ofDeclaration d .unused
      return { finding with
        severity := .info, message := s!"{finding.message} (ignored by directive)" }

/-- Every finding, in the order in which they are looked for. -/
def gather (s : Settings) (g : Graph) : List Finding :=
  unusedDeclarations g ++ (if s.detection.unusedParameters then unusedParameters g else []) ++
    unusedImports g ++ redundantProtocols g ++ redundantTiers g ++
    (if s.report.showIgnored then suppressedDeclarations g else [])

/-- The findings of an analysis, without those in excluded files, by location, code and name. -/
def collect (s : Settings) (g : Graph) : List Finding :=
  sort ((gather s g).filter fun f => !s.excludes f.location.file)

end Finding

end Deadwood
