/-
  White space, as the Unicode property of that name has it: the blanks of ASCII, the next-line
  control, the no-break space and the spaces of the punctuation blocks.
-/

namespace Deadwood.Text

/-- The code points of white space, as closed ranges in ascending order. -/
def blankRanges : List (Nat × Nat) := [
    (0x9, 0xD), (0x20, 0x20), (0x85, 0x85), (0xA0, 0xA0), (0x1680, 0x1680), (0x2000, 0x200A),
    (0x2028, 0x2029), (0x202F, 0x202F), (0x205F, 0x205F), (0x3000, 0x3000)]

/-- Whether a character is white space. -/
def isBlank (c : Char) : Bool :=
  blankRanges.any fun r => r.1 ≤ c.toNat && c.toNat ≤ r.2

/-- What remains when white space is taken off both ends. -/
def trimBlank (cs : List Char) : List Char :=
  ((cs.dropWhile isBlank).reverse.dropWhile isBlank).reverse

example : String.ofList (trimBlank " a b\n".toList) = "a b" := by decide
example : isBlank (Char.ofNat 0xFEFF) = false := by decide

end Deadwood.Text
