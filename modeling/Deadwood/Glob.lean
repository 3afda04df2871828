/-
  Patterns for names and paths.

  A pattern is read in one of these ways, the first that applies:

  * `*tail` without a slash: texts that end in `tail`;
  * `head*` without a slash: texts that begin with `head`;
  * `**/dir/**`: texts with the directory `dir` somewhere on the way;
  * `head**tail` with a single double star: texts with the head in front, or as a directory
    somewhere, and with the tail at the end, or as a component somewhere; a star in front of the
    tail leaves only the end; an empty head or tail asks for nothing;
  * anything else: that text and no other.
-/
import Deadwood.Text.Pieces

namespace Deadwood.Glob

open Text

/-- Whether the text begins with a directory, or has it on the way. -/
def hasDirectory (dir text : List Char) : Bool :=
  occurs ('/' :: dir ++ ['/']) text || (dir ++ ['/']).isPrefixOf text

/-- Whether the text has the head of a pattern in front, or as a directory on the way. -/
def headMatches (head text : List Char) : Bool :=
  head.isPrefixOf text || occurs ('/' :: head ++ ['/']) text

/-- Whether the text has the tail of a pattern at the end, or as a component on the way. -/
def tailMatches (tail text : List Char) : Bool :=
  match tail with
  | '*' :: rest => rest.isSuffixOf text
  | _ => tail.isSuffixOf text || occurs ('/' :: tail) text

/-- A pattern with a single double star between a head and a tail. -/
def betweenMatches (head tail text : List Char) : Bool :=
  let head := trimEnd '/' head
  let tail := tail.dropWhile (· == '/')
  (head.isEmpty || headMatches head text) && (tail.isEmpty || tailMatches tail text)

/-- Whether a text, as a list of characters, matches a pattern. -/
def matchesList (pattern text : List Char) : Bool :=
  let flat := !pattern.contains '/'
  if flat && pattern.head? == some '*' then pattern.tail.isSuffixOf text
  else if flat && pattern.getLast? == some '*' then pattern.dropLast.isPrefixOf text
  else if ['*', '*', '/'].isPrefixOf pattern && ['/', '*', '*'].isSuffixOf pattern then
    let dir := eraseText ['/', '*', '*'] (eraseText ['*', '*', '/'] pattern)
    hasDirectory (trimBoth '/' dir) text
  else match splitOnText ['*', '*'] pattern with
    | [head, tail] => betweenMatches head tail text
    | _ => text == pattern

/-- Whether a text matches a pattern. -/
def isMatch (pattern text : String) : Bool := matchesList pattern.toList text.toList

end Deadwood.Glob

namespace Deadwood

example : Glob.isMatch "*Handler" "EventHandler" = true := by decide
example : Glob.isMatch "**/Generated/**" "Generated/Api.swift" = true := by decide
example : Glob.isMatch "**/Generated/**" "GeneratedCode/Api.swift" = false := by decide
example : Glob.isMatch "Sources/**/*.pb.swift" "Sources/Proto/Message.pb.swift" = true := by decide

end Deadwood
