/-
  Loading settings from files.

  The extension of a file says how it is written.  A file of any other extension is tried as YAML
  first and as TOML then.  Without a named file, the first of the default files that is there is
  loaded, and when none is there the settings keep their defaults.
-/
import Deadwood.FileTree
import Deadwood.Settings.Toml
import Deadwood.Settings.Yaml

namespace Deadwood.Settings

/-- Why settings are not loaded. -/
inductive LoadError where
  | unreadable (path : Path)
  | malformedYaml
  | malformedToml
  /-- Neither of the formats. -/
  | malformed
  deriving DecidableEq, Repr

namespace LoadError

/-- The message of an error. -/
def message : LoadError → String
  | unreadable path => s!"Failed to read config file: {path.text}"
  | malformedYaml => "Failed to parse YAML config"
  | malformedToml => "Failed to parse TOML config"
  | malformed => "Failed to parse config file"

end LoadError

/-- The settings that a text holds, in the format of a file extension. -/
def ofText (extension : String) (text : String) : Except LoadError Settings :=
  match extension with
  | "yml" | "yaml" => ((ofYaml? text).map .ok).getD (.error .malformedYaml)
  | "toml" => ((ofToml? text).map .ok).getD (.error .malformedToml)
  | _ => (((ofYaml? text).or (ofToml? text)).map .ok).getD (.error .malformed)

/-- Load settings from a file. -/
def load (look : Path → Entry) (path : Path) : Except LoadError Settings :=
  match look path with
  | .file text => ofText (path.fileExtension?.getD "") text
  | _ => .error (.unreadable path)

/-- The names of the default files, the first choice first. -/
def defaultNames : List String := [
    ".swiftdeadcode.yml",
    ".swiftdeadcode.yaml",
    ".swiftdeadcode.toml",
    "swiftdeadcode.yml",
    "swiftdeadcode.yaml",
    "swiftdeadcode.toml"]

/-- The default files of a directory. -/
def defaultPaths (root : Path) : List Path := defaultNames.map root.join

/-- Load settings from the first default file that is there. -/
def loadDefault (look : Path → Entry) (root : Path) : Except LoadError Settings :=
  match (defaultPaths root).find? fun p => look p != .missing with
  | some path => load look path
  | none => .ok {}

end Deadwood.Settings
