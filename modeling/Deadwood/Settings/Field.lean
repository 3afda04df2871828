/-
  Reading settings from any of the formats they are written in.

  1. **`Field`** — a value as a format gives it: a scalar with its readings as a truth value and as
     a text, a list, or a table.  Which readings a scalar has is for the format to say.

  2. **`Spec`** — a setting: its name and how it is taken over from a field.  A section is a list
     of specs, and the same list serves tables (by name) and lists (by position).

  3. **Rules** — settings that are left out keep their defaults, names that no setting has are
     passed over, and a setting that stands twice is an error.
-/
import Deadwood.Json.Basic
import Deadwood.Settings.Basic

namespace Deadwood.Settings

/-- A value in a file of settings. -/
inductive Field where
  /-- A scalar, with its readings; `isNull` says that it stands for nothing at all. -/
  | scalar (flag : Option Bool) (text : Option String) (isNull : Bool)
  | list (items : List Field)
  | table (entries : List (String × Field))
  deriving Inhabited

namespace Field

/-- A scalar that no setting has a use for. -/
def otherScalar : Field := .scalar none none false

/-- A truth value. -/
def flag? : Field → Option Bool
  | .scalar flag _ _ => flag
  | _ => none

/-- A text. -/
def text? : Field → Option String
  | .scalar _ text _ => text
  | _ => none

/-- A list of texts; nothing at all stands for the empty list. -/
def texts? : Field → Option (List String)
  | .list items => items.mapM text?
  | .scalar _ _ true => some []
  | _ => none

end Field

/-- A setting of a section. -/
structure Spec (σ : Type) where
  name : String
  take : Field → σ → Option σ

namespace Spec

/-- A setting that is a truth value. -/
def flag {σ : Type} (name : String) (set : Bool → σ → σ) : Spec σ :=
  ⟨name, fun f s => f.flag?.map (set · s)⟩

/-- A setting that is a text. -/
def text {σ : Type} (name : String) (set : String → σ → σ) : Spec σ :=
  ⟨name, fun f s => f.text?.map (set · s)⟩

/-- A setting that is a list of texts. -/
def texts {σ : Type} (name : String) (set : List String → σ → σ) : Spec σ :=
  ⟨name, fun f s => f.texts?.map (set · s)⟩

end Spec

/-- Whether some setting stands twice in a table. -/
def hasRepeatedSetting {σ : Type} (specs : List (Spec σ)) (entries : List (String × Field)) :
    Bool :=
  specs.any fun spec => 1 < entries.countP (·.1 == spec.name)

/-- Whether a list may stand for a section and give its settings in order. -/
inductive ListRule where
  | refused
  /-- It may, with as many items as there are settings at most. -/
  | bounded
  /-- It may, and what is too much is passed over. -/
  | generous
  deriving DecidableEq, Repr

/-- Whether a list of so many items may stand for a section of so many settings. -/
def ListRule.admits (items settings : Nat) : ListRule → Bool
  | refused => false
  | bounded => items ≤ settings
  | generous => true

/-- Take over the settings of a section. -/
def readSection {σ : Type} (rule : ListRule) (specs : List (Spec σ)) (start : σ) :
    Field → Option σ
  | .table entries =>
      if hasRepeatedSetting specs entries then none
      else entries.foldlM (fun s e =>
        match specs.find? (·.name == e.1) with
        | some spec => spec.take e.2 s
        | none => some s) start
  | .list items =>
      if rule.admits items.length specs.length then
        (specs.zip items).foldlM (fun s p => p.1.take p.2 s) start
      else none
  | .scalar _ _ true => some start
  | .scalar _ _ false => none

/-- The settings of the report section. -/
def reportSpecs : List (Spec ReportSettings) := [
    .text "format" fun v s => { s with format := v },
    .flag "show_ignored" fun v s => { s with showIgnored := v }]

/-- The settings of the detection section. -/
def detectionSpecs : List (Spec Detection) := [
    .flag "unused_imports" fun v s => { s with unusedImports := v },
    .flag "unused_parameters" fun v s => { s with unusedParameters := v },
    .flag "redundant_public" fun v s => { s with redundantPublic := v },
    .flag "redundant_internal" fun v s => { s with redundantInternal := v },
    .flag "redundant_fileprivate" fun v s => { s with redundantFileprivate := v },
    .flag "redundant_protocols" fun v s => { s with redundantProtocols := v },
    .flag "assign_only_properties" fun v s => { s with assignOnlyProperties := v }]

/-- All settings. -/
def specs (rule : ListRule) : List (Spec Settings) := [
    .flag "retain_public" fun v s => { s with retainPublic := v },
    .flag "retain_objc_accessible" fun v s => { s with retainObjcAccessible := v },
    .flag "retain_assign_only_properties" fun v s => { s with retainAssignOnlyProperties := v },
    .flag "retain_unused_protocol_func_params"
      fun v s => { s with retainUnusedProtocolFuncParams := v },
    .flag "retain_swift_ui_previews" fun v s => { s with retainSwiftUiPreviews := v },
    .texts "retain_patterns" fun v s => { s with retainPatterns := v },
    .texts "external_test_case_classes" fun v s => { s with externalTestCaseClasses := v },
    .texts "report_exclude" fun v s => { s with reportExclude := v },
    ⟨"report", fun f s => do
      return { s with report := ← readSection rule reportSpecs {} f }⟩,
    ⟨"detection", fun f s => do
      return { s with detection := ← readSection rule detectionSpecs {} f }⟩]

/-- The settings that a field holds. -/
def ofField? (rule : ListRule) (f : Field) : Option Settings :=
  readSection rule (specs rule) {} f

/-! ## JSON -/

mutual

/-- A JSON value as a field: texts are texts, truth values are truth values, and that is all. -/
def fieldOfJson : Json → Field
  | .bool b => .scalar (some b) none false
  | .str s => .scalar none (some s) false
  | .arr items => .list (fieldsOfItems items)
  | .obj fields => .table (fieldsOfEntries fields)
  | _ => .otherScalar

/-- The items of an array as fields. -/
def fieldsOfItems : List Json → List Field
  | [] => []
  | j :: js => fieldOfJson j :: fieldsOfItems js

/-- The fields of an object as fields. -/
def fieldsOfEntries : List (String × Json) → List (String × Field)
  | [] => []
  | (name, j) :: rest => (name, fieldOfJson j) :: fieldsOfEntries rest

end

/-- The settings of a JSON value. -/
def ofJson? (j : Json) : Option Settings := ofField? .bounded (fieldOfJson j)

/-- A list of texts. -/
def textsJson (items : List String) : Json := .arr (items.map Json.str)

/-- The settings as a JSON value, with every setting. -/
def toJson (s : Settings) : Json := .obj [
    ("retain_public", .bool s.retainPublic),
    ("retain_objc_accessible", .bool s.retainObjcAccessible),
    ("retain_assign_only_properties", .bool s.retainAssignOnlyProperties),
    ("retain_unused_protocol_func_params", .bool s.retainUnusedProtocolFuncParams),
    ("retain_swift_ui_previews", .bool s.retainSwiftUiPreviews),
    ("retain_patterns", textsJson s.retainPatterns),
    ("external_test_case_classes", textsJson s.externalTestCaseClasses),
    ("report_exclude", textsJson s.reportExclude),
    ("report", .obj [
      ("format", .str s.report.format),
      ("show_ignored", .bool s.report.showIgnored)]),
    ("detection", .obj [
      ("unused_imports", .bool s.detection.unusedImports),
      ("unused_parameters", .bool s.detection.unusedParameters),
      ("redundant_public", .bool s.detection.redundantPublic),
      ("redundant_internal", .bool s.detection.redundantInternal),
      ("redundant_fileprivate", .bool s.detection.redundantFileprivate),
      ("redundant_protocols", .bool s.detection.redundantProtocols),
      ("assign_only_properties", .bool s.detection.assignOnlyProperties)])]

end Deadwood.Settings
