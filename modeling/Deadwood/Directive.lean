/-
  Directives: comments that tell the analysis to leave something alone.

  The grammar, with blanks and word characters in the sense of Unicode:

      directive  =  blank* "swiftdeadcode:ignore" blank*
                 |  blank* "swiftdeadcode:ignore:all" blank*
                 |  blank* "swiftdeadcode:ignore:parameters" blank item+

  where an `item` is a word character, a blank or a comma.  The items hold the names of the
  parameters, between commas; blanks around a name do not belong to it and empty names are
  dropped, so the list of names may be empty.
-/
import Deadwood.Text.Blank
import Deadwood.Text.Word
import Deadwood.Text.Pieces

namespace Deadwood

/-- What a comment asks for. -/
inductive Directive where
  /-- Leave the declaration alone, and all that is nested in it. -/
  | ignore
  /-- Leave every declaration of the file alone. -/
  | ignoreAll
  /-- Leave the named parameters of the function alone. -/
  | ignoreParameters (names : List String)
  deriving DecidableEq, Repr

namespace Directive

/-- The word that every directive begins with. -/
def keyword : List Char := "swiftdeadcode:ignore".toList

/-- The names between the commas of a list of items. -/
def parameterNames (items : List Char) : List String :=
  (((Text.cutAt ',' items).map Text.trimBlank).filter (!·.isEmpty)).map String.ofList

/-- Whether a character may stand in the list of parameter names. -/
def isItem (c : Char) : Bool := Text.isWord c || Text.isBlank c || c == ','

/-- What follows the keyword. -/
def ofTail? (tail : List Char) : Option Directive :=
  if tail.all Text.isBlank then some .ignore
  else if ":all".toList.isPrefixOf tail then
    if (tail.drop 4).all Text.isBlank then some .ignoreAll else none
  else if ":parameters".toList.isPrefixOf tail then
    match tail.drop 11 with
    | first :: items =>
        if Text.isBlank first && !items.isEmpty && items.all isItem then
          some (.ignoreParameters (parameterNames items))
        else none
    | [] => none
  else none

/-- The directive that a comment holds, if it holds one. -/
def parse? (comment : String) : Option Directive :=
  let body := comment.toList.dropWhile Text.isBlank
  if keyword.isPrefixOf body then ofTail? (body.drop keyword.length) else none

/-- The directives among the comments, in order. -/
def parseAll (comments : List String) : List Directive := comments.filterMap parse?

end Directive

example : Directive.parse? " swiftdeadcode:ignore\n" = some .ignore := by decide
example : Directive.parse? "swiftdeadcode:ignore:all:all" = none := by decide
example : Directive.parse? "swiftdeadcode:ignore:parameters a, b" =
    some (.ignoreParameters ["a", "b"]) := by decide +kernel

end Deadwood
