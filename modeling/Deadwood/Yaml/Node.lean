/-
  The nodes of a YAML document.

  1. **Types** — a node is a scalar, a sequence or a mapping.  Aliases are replaced by what they
     name; an alias inside of what it names is a `loop`.

  2. **Program** — `node` and the functions around it follow the tokens.  Every call takes a token
     or hands over to a function that does, so a fixed multiple of the number of tokens is enough
     `fuel`.  `parse?` reads a text that holds one document.
-/
import Deadwood.Yaml.Token

namespace Deadwood.Yaml

/-- A node of a document. -/
inductive Node where
  | scalar (style : Style) (tag : Option String) (text : String)
  | sequence (items : List Node)
  | mapping (entries : List (Node × Node))
  /-- An alias inside of what it names. -/
  | loop
  deriving Inhabited

namespace Node

/-- The node where nothing is written. -/
def empty : Node := .scalar .plain none ""

end Node

/-- What is left to read, and what has been declared. -/
structure Reading where
  tokens : List Token
  /-- The anchors, the latest first; without a node while that is being read. -/
  anchors : List (String × Option Node) := []
  /-- What the handles of tags stand for. -/
  handles : List (String × String) := []

/-- Reading that may fail. -/
abbrev Reader := StateT Reading Option

namespace Reader

/-- The next token. -/
def peek : Reader (Option Token) := return (← get).tokens.head?

/-- Pass over a token. -/
def skip : Reader Unit := modify fun r => { r with tokens := r.tokens.tail }

/-- Pass over a token if it comes next. -/
def take (t : Token) : Reader Bool := do
  if (← peek) == some t then
    skip
    return true
  return false

/-- Whether one of some tokens comes next. -/
def sees (ts : List Token) : Reader Bool := return (← peek).any ts.contains

/-- Declare an anchor. -/
def declare (anchor : Option String) (node : Option Node) : Reader Unit :=
  match anchor with
  | some name => modify fun r => { r with anchors := (name, node) :: r.anchors }
  | none => pure ()

/-- What an alias names. -/
def resolve (name : String) : Reader Node := do
  match (← get).anchors.lookup name with
  | some (some node) => return node
  | some none => return .loop
  | none => failure

/-- The handles that need no declaration. -/
def standardHandles : List (String × String) := [("!", "!"), ("!!", "tag:yaml.org,2002:")]

/-- The full name of a tag. -/
def fullTag (handle suffix : String) : Reader String := do
  if handle == "" then return suffix
  match ((← get).handles ++ standardHandles).lookup handle with
  | some start => return start ++ suffix
  | none => failure

/-- The anchor in front of a node. -/
def anchor? : Reader (Option String) := do
  match ← peek with
  | some (.anchor name) =>
      skip
      return some name
  | _ => return none

/-- The tag in front of a node. -/
def tag? : Reader (Option String) := do
  match ← peek with
  | some (.tag handle suffix) =>
      skip
      return some (← fullTag handle suffix)
  | _ => return none

/-- The anchor and the tag in front of a node, in either order. -/
def properties : Reader (Option String × Option String) := do
  match ← anchor? with
  | some name => return (some name, ← tag?)
  | none =>
      match ← tag? with
      | some tag => return (← anchor?, some tag)
      | none => return (none, none)

mutual

/-- A node.  Blocks may start where `inBlock` holds, and a sequence may stand at the column of the
mapping around it where `unindented` holds. -/
def node (inBlock unindented : Bool) : Nat → Reader Node
  | 0 => failure
  | fuel + 1 => do
      match ← peek with
      | some (.alias name) =>
          skip
          resolve name
      | _ =>
          let (anchor, tag) ← properties
          declare anchor none
          let node ← content inBlock unindented anchor.isSome tag fuel
          declare anchor (some node)
          return node

/-- A node behind its anchor and its tag. -/
def content (inBlock unindented hasAnchor : Bool) (tag : Option String) : Nat → Reader Node
  | 0 => failure
  | fuel + 1 => do
      match ← peek with
      | some (.scalar style text) =>
          skip
          return .scalar style tag text
      | some .openBracket =>
          skip
          return .sequence (← bracketItems true fuel)
      | some .openBrace =>
          skip
          return .mapping (← braceEntries true fuel)
      | next =>
          if unindented && next == some .entry then
            return .sequence (← unindentedItems fuel)
          else if inBlock && next == some .blockSequence then
            skip
            return .sequence (← blockItems fuel)
          else if inBlock && next == some .blockMapping then
            skip
            return .mapping (← blockEntries fuel)
          else if hasAnchor || tag.isSome then return .scalar .plain tag ""
          else failure

/-- A node, or the empty node in front of some tokens. -/
def nodeUnless (stops : List Token) (inBlock unindented : Bool) : Nat → Reader Node
  | 0 => failure
  | fuel + 1 => do
      if ← sees stops then return .empty
      node inBlock unindented fuel

/-- The items of a block sequence, to its end. -/
def blockItems : Nat → Reader (List Node)
  | 0 => failure
  | fuel + 1 => do
      if ← take .blockEnd then return []
      unless ← take .entry do failure
      let item ← nodeUnless [.entry, .blockEnd] true false fuel
      return item :: (← blockItems fuel)

/-- The items of a sequence that stands at the column of the mapping around it. -/
def unindentedItems : Nat → Reader (List Node)
  | 0 => failure
  | fuel + 1 => do
      unless ← take .entry do return []
      let item ← nodeUnless [.entry, .key, .value, .blockEnd] true false fuel
      return item :: (← unindentedItems fuel)

/-- The entries of a block mapping, to its end.  A key may stand without a value. -/
def blockEntries : Nat → Reader (List (Node × Node))
  | 0 => failure
  | fuel + 1 => do
      if ← take .blockEnd then return []
      unless ← take .key do failure
      let key ← nodeUnless [.key, .value, .blockEnd] true true fuel
      let value ←
        if ← take .value then nodeUnless [.key, .value, .blockEnd] true true fuel
        else pure .empty
      return (key, value) :: (← blockEntries fuel)

/-- The items between brackets, to the closing one.  An item may be a mapping of one entry. -/
def bracketItems (isFirst : Bool) : Nat → Reader (List Node)
  | 0 => failure
  | fuel + 1 => do
      if ← take .closeBracket then return []
      unless isFirst do
        unless ← take .comma do failure
      if ← take .closeBracket then return []
      let item ← if ← take .key then pair fuel else node false false fuel
      return item :: (← bracketItems false fuel)

/-- A mapping of one entry between brackets.  A token in the place of the key is passed over. -/
def pair : Nat → Reader Node
  | 0 => failure
  | fuel + 1 => do
      let missing ← sees [.value, .comma, .closeBracket]
      if missing then skip
      let key ← if missing then pure .empty else node false false fuel
      let value ←
        if ← take .value then nodeUnless [.comma, .closeBracket] false false fuel
        else pure .empty
      return .mapping [(key, value)]

/-- The entries between braces, to the closing one. -/
def braceEntries (isFirst : Bool) : Nat → Reader (List (Node × Node))
  | 0 => failure
  | fuel + 1 => do
      if ← take .closeBrace then return []
      unless isFirst do
        unless ← take .comma do failure
      if ← take .closeBrace then return []
      if ← take .key then
        let key ← nodeUnless [.value, .comma, .closeBrace] false false fuel
        let value ←
          if ← take .value then nodeUnless [.comma, .closeBrace] false false fuel
          else pure .empty
        return (key, value) :: (← braceEntries false fuel)
      else
        let key ← node false false fuel
        return (key, .empty) :: (← braceEntries false fuel)

end

/-! ## Documents -/

/-- The directives in front of a document; a version that is not known, and what is declared
twice, are refused. -/
def directives (hasVersion : Bool) : Nat → Reader Unit
  | 0 => failure
  | fuel + 1 => do
      match ← peek with
      | some (.versionDirective major minor) =>
          if hasVersion || major != 1 || (minor != 1 && minor != 2) then failure
          skip
          directives true fuel
      | some (.tagDirective handle start) =>
          if ((← get).handles.lookup handle).isSome then failure
          modify fun r => { r with handles := (handle, start) :: r.handles }
          skip
          directives hasVersion fuel
      | _ => return

/-- The content of a document behind its start. -/
def documentContent (fuel : Nat) : Reader Node := do
  match ← peek with
  | none | some .documentStart | some .documentEnd => return .empty
  | some (.versionDirective ..) | some (.tagDirective ..) => return .empty
  | _ => node true false fuel

/-- The one document of a text. -/
def document (fuel : Nat) : Reader Node := do
  match ← peek with
  | some .documentStart | some (.versionDirective ..) | some (.tagDirective ..) =>
      directives false fuel
      unless ← take .documentStart do failure
      documentContent fuel
  | none => return .empty
  | _ => node true false fuel

/-- The one document of a text, to the end of the text. -/
def wholeText (fuel : Nat) : Reader Node := do
  let root ← document fuel
  if (← get).tokens.all (· == .documentEnd) then return root else failure

end Reader

/-- Read a text that holds one document; a text without one holds the empty node. -/
def parse? (text : String) : Option Node := do
  let tokens ← tokens? text
  let (root, _) ← (Reader.wholeText (4 * tokens.length + 8)).run { tokens }
  return root

end Deadwood.Yaml
