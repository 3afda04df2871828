/-
  Looking for one text inside another, and cutting a text into pieces.

  Texts are lists of characters here, so that each function follows the list.  `occurs` is the
  reading of "contains"; `cutAt` splits at a single character; `splitOnText` and `eraseText` find
  the occurrences of a pattern from the left, without overlap.
-/

namespace Deadwood.Text

/-- Whether `pat` stands somewhere in the text. -/
def occurs (pat : List Char) : List Char → Bool
  | [] => pat.isEmpty
  | c :: cs => pat.isPrefixOf (c :: cs) || occurs pat cs

/-- `occurs` says that the text is a beginning, the pattern and an end. -/
theorem occurs_iff {pat text : List Char} :
    occurs pat text = true ↔ ∃ before behind, text = before ++ pat ++ behind := by
  induction text with
  | nil =>
      simp only [occurs, List.isEmpty_iff]
      exact ⟨fun h => ⟨[], [], by simp [h]⟩, fun ⟨b, e, h⟩ => by simp_all⟩
  | cons c cs ih =>
      simp only [occurs, Bool.or_eq_true, List.isPrefixOf_iff_prefix, ih]
      constructor
      · rintro (⟨e, h⟩ | ⟨b, e, h⟩)
        · exact ⟨[], e, by simp [h]⟩
        · exact ⟨c :: b, e, by simp [h]⟩
      · rintro ⟨b, e, h⟩
        cases b with
        | nil => exact Or.inl ⟨e, by simpa using h.symm⟩
        | cons d b =>
            simp only [List.cons_append, List.cons.injEq] at h
            exact Or.inr ⟨b, e, h.2⟩

/-- The pieces of a text between the occurrences of a character; there is always at least one. -/
def cutAt (sep : Char) : List Char → List (List Char)
  | [] => [[]]
  | c :: cs =>
      if c = sep then [] :: cutAt sep cs
      else match cutAt sep cs with
        | [] => [[c]]
        | piece :: pieces => (c :: piece) :: pieces

/-- The pieces of a text between the occurrences of a pattern, found from the left without
overlap.  `skip` counts the characters of an occurrence that are still to be passed over. -/
def splitFrom (pat : List Char) (skip : Nat) : List Char → List (List Char)
  | [] => [[]]
  | c :: cs =>
      match skip with
      | n + 1 => splitFrom pat n cs
      | 0 =>
          if pat.isPrefixOf (c :: cs) then [] :: splitFrom pat (pat.length - 1) cs
          else match splitFrom pat 0 cs with
            | [] => [[c]]
            | piece :: pieces => (c :: piece) :: pieces

/-- The pieces of a text between the occurrences of a non-empty pattern. -/
def splitOnText (pat text : List Char) : List (List Char) := splitFrom pat 0 text

/-- The text without the occurrences of a non-empty pattern. -/
def eraseText (pat text : List Char) : List Char := (splitOnText pat text).flatten

/-- What remains when a character is taken off the end as often as it stands there. -/
def trimEnd (c : Char) (text : List Char) : List Char :=
  (text.reverse.dropWhile (· == c)).reverse

/-- What remains when a character is taken off both ends as often as it stands there. -/
def trimBoth (c : Char) (text : List Char) : List Char := trimEnd c (text.dropWhile (· == c))

example : cutAt ':' "a::b".toList = ["a".toList, [], "b".toList] := by decide
example : splitOnText "**".toList "a***b".toList = ["a".toList, "*b".toList] := by decide
example : eraseText "/**".toList "x/**/**".toList = "x".toList := by decide

end Deadwood.Text
