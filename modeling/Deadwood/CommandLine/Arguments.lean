/-
  The arguments of the command line.

  1. **Grammar** — an argument is a long option `--name` or `--name=value`, a cluster of short
     options `-abc` whose last one may take the rest as its value (`-fjson`, `-f=json`), or plain.
     Behind `--` everything is plain.  An option that takes a value and has none attached takes the
     next argument, which must be plain.

  2. **Rules** — exactly one plain argument, the document to analyse, is needed; every option
     stands at most once, patterns to retain excepted; paths are not empty.

  3. **Order** — arguments are obeyed from left to right: a request for help or for the version
     wins over what is wrong behind it, and loses to what is wrong in front of it.
-/
import Deadwood.Report.Delivery

namespace Deadwood.CommandLine

/-! ## Options -/

/-- An option that is either there or not. -/
inductive Switch where
  | retainPublic
  | retainObjcAccessible
  | verbose
  | quiet
  deriving DecidableEq, Repr

/-- An option with a value. -/
inductive Setting where
  | config
  | format
  | output
  | retain
  deriving DecidableEq, Repr

/-- An option. -/
inductive Flag where
  | switch (s : Switch)
  | setting (s : Setting)
  | help
  | version
  deriving DecidableEq, Repr

namespace Flag

/-- The option of a long name. -/
def ofName? : String → Option Flag
  | "config" => some (.setting .config)
  | "format" => some (.setting .format)
  | "output" => some (.setting .output)
  | "retain" => some (.setting .retain)
  | "retain-public" => some (.switch .retainPublic)
  | "retain-objc-accessible" => some (.switch .retainObjcAccessible)
  | "verbose" => some (.switch .verbose)
  | "quiet" => some (.switch .quiet)
  | "help" => some .help
  | "version" => some .version
  | _ => none

/-- The option of a letter. -/
def ofLetter? : Char → Option Flag
  | 'c' => some (.setting .config)
  | 'f' => some (.setting .format)
  | 'o' => some (.setting .output)
  | 'r' => some (.setting .retain)
  | 'v' => some (.switch .verbose)
  | 'q' => some (.switch .quiet)
  | 'h' => some .help
  | 'V' => some .version
  | _ => none

end Flag

/-! ## The form of an argument -/

/-- An argument by its form. -/
inductive Argument where
  | plain (text : String)
  /-- Two dashes alone: only plain arguments follow. -/
  | divider
  | long (name : String) (value : Option String)
  | cluster (letters : List Char)
  deriving DecidableEq, Repr

/-- The name and the value of a long option, cut at the first equals sign. -/
def cutOption (cs : List Char) : Argument :=
  let name := String.ofList (cs.takeWhile (· ≠ '='))
  match cs.dropWhile (· ≠ '=') with
  | [] => .long name none
  | _ :: value => .long name (some (String.ofList value))

/-- The form of an argument; a dash alone is plain. -/
def Argument.ofText (text : String) : Argument :=
  match text.toList with
  | ['-', '-'] => .divider
  | '-' :: '-' :: cs => cutOption cs
  | '-' :: c :: cs => .cluster (c :: cs)
  | _ => .plain text

/-! ## Reading -/

/-- Why reading stops early. -/
inductive Stop where
  | wrongUsage
  | help
  | version
  deriving DecidableEq, Repr

/-- What has been asked for so far. -/
structure Draft where
  input : Option Path := none
  config : Option Path := none
  format : Option Report.Format := none
  output : Option Path := none
  retain : List String := []
  switches : List Switch := []
  deriving DecidableEq, Repr

/-- A path that is not empty. -/
def path? (text : String) : Option Path := if text = "" then none else some ⟨text⟩

/-- The format of a name, spelt exactly. -/
def format? : String → Option Report.Format
  | "terminal" => some .terminal
  | "json" => some .json
  | _ => none

/-- Fill what may be given once only. -/
def fillOnce {α : Type} (old new : Option α) : Except Stop (Option α) :=
  match old, new with
  | none, some a => .ok (some a)
  | _, _ => .error .wrongUsage

namespace Draft

/-- Take a plain argument. -/
def addInput (d : Draft) (text : String) : Except Stop Draft := do
  return { d with input := ← fillOnce d.input (path? text) }

/-- Take an option with its value. -/
def set (d : Draft) (value : String) : Setting → Except Stop Draft
  | .config => do return { d with config := ← fillOnce d.config (path? value) }
  | .format => do return { d with format := ← fillOnce d.format (format? value) }
  | .output => do return { d with output := ← fillOnce d.output (path? value) }
  | .retain => .ok { d with retain := d.retain ++ [value] }

/-- Take a switch. -/
def turnOn (d : Draft) (s : Switch) : Except Stop Draft :=
  if s ∈ d.switches then .error .wrongUsage else .ok { d with switches := d.switches ++ [s] }

/-- Take a cluster of short options; the answer also names an option that waits for its value. -/
def readCluster (d : Draft) : List Char → Except Stop (Draft × Option Setting)
  | [] => .ok (d, none)
  | c :: cs =>
      match Flag.ofLetter? c with
      | none => .error .wrongUsage
      | some .help => .error .help
      | some .version => .error .version
      | some (.switch s) =>
          match d.turnOn s with
          | .ok d => d.readCluster cs
          | .error stop => .error stop
      | some (.setting s) =>
          match cs with
          | [] => .ok (d, some s)
          | '=' :: value => do return (← d.set (String.ofList value) s, none)
          | value => do return (← d.set (String.ofList value) s, none)

/-- Take an argument; the answer also names an option that waits for its value. -/
def readArgument (d : Draft) : Argument → Except Stop (Draft × Option Setting)
  | .divider => .ok (d, none)
  | .plain text => do return (← d.addInput text, none)
  | .cluster letters => d.readCluster letters
  | .long name value =>
      match Flag.ofName? name, value with
      | some (.setting s), some value => do return (← d.set value s, none)
      | some (.setting s), none => .ok (d, some s)
      | some (.switch s), none => do return (← d.turnOn s, none)
      | some .help, none => .error .help
      | some .version, none => .error .version
      | _, _ => .error .wrongUsage

/-- Take all arguments, where `waiting` names an option that waits for its value. -/
def readAll (d : Draft) (waiting : Option Setting) : List String → Except Stop Draft
  | [] => if waiting.isSome then .error .wrongUsage else .ok d
  | text :: rest =>
      match Argument.ofText text, waiting with
      | .plain value, some s =>
          match d.set value s with
          | .ok d => d.readAll none rest
          | .error stop => .error stop
      | _, some _ => .error .wrongUsage
      | .divider, none => rest.foldlM addInput d
      | argument, none =>
          match d.readArgument argument with
          | .ok (d, waiting) => d.readAll waiting rest
          | .error stop => .error stop

end Draft

/-- What the command line asks for. -/
structure Request where
  /-- The document to analyse. -/
  input : Path
  /-- Where the settings are; without it the default files are tried. -/
  config : Option Path := none
  /-- The format of the report; without it the settings say. -/
  format : Option Report.Format := none
  /-- Where the report goes, when it is for programs. -/
  output : Option Path := none
  /-- Patterns of names to retain, besides those of the settings. -/
  retain : List String := []
  retainPublic : Bool := false
  retainObjcAccessible : Bool := false
  verbose : Bool := false
  quiet : Bool := false
  deriving DecidableEq, Repr

/-- Read the arguments of the command line. -/
def Request.ofArguments (arguments : List String) : Except Stop Request := do
  let d ← ({} : Draft).readAll none arguments
  match d.input with
  | none => .error .wrongUsage
  | some input => return {
      input, config := d.config, format := d.format, output := d.output, retain := d.retain,
      retainPublic := .retainPublic ∈ d.switches,
      retainObjcAccessible := .retainObjcAccessible ∈ d.switches,
      verbose := .verbose ∈ d.switches,
      quiet := .quiet ∈ d.switches }

example : Request.ofArguments ["-qfjson", "g.json", "--retain=a", "-r", "-"] =
    .ok { input := ⟨"g.json"⟩, format := some .json, retain := ["a", "-"], quiet := true } := by
  rfl
example : Request.ofArguments ["-V", "--bogus"] = .error .version := by rfl
example : Request.ofArguments ["--bogus", "-V"] = .error .wrongUsage := by rfl
example : Request.ofArguments ["g.json", "-q", "-q"] = .error .wrongUsage := by rfl
example : Request.ofArguments ["--", "-q"] = .ok { input := ⟨"-q"⟩ } := by rfl

end Deadwood.CommandLine
