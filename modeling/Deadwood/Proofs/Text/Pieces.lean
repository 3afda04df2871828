/-
  What cutting a text comes to.

  1. **At a character (`cutAt_eq_splitOn`)** — the pieces are those of the library, so a text and its
     pieces determine each other (`intercalate_cutAt`, `cutAt_intercalate`), and a separator in the
     text is a boundary between pieces (`cutAt_append`).

  2. **At a pattern (`splitFrom_append`)** — what holds no occurrence of the pattern, not even one
     that begins in it and ends behind it, goes to the first piece as a whole.

  3. **Trimming (`trimEnd_eq`, `trimBoth_eq`)** — nothing is taken off where the text does
     not end in the character.
-/
import Deadwood.Text.Blank
import Deadwood.Text.Pieces

namespace Deadwood.Text

variable {c sep : Char} {pat head rest text lead trail : List Char}

/-! ## Pieces at a character -/

/-- The pieces are those of `List.splitOn`. -/
theorem cutAt_eq_splitOn (sep : Char) (cs : List Char) : cutAt sep cs = cs.splitOn sep := by
  induction cs with
  | nil => rfl
  | cons c cs ih =>
      rw [cutAt, List.splitOn_cons_eq_if_modifyHead, ih]
      by_cases hc : c = sep
      · simp [hc]
      · rw [if_neg hc, if_neg (by simpa using hc)]
        cases hpieces : cs.splitOn sep with
        | nil => exact absurd hpieces (List.splitOnP_ne_nil _ _)
        | cons p ps => rfl

theorem cutAt_ne_nil (sep : Char) (cs : List Char) : cutAt sep cs ≠ [] := by
  rw [cutAt_eq_splitOn]
  exact List.splitOnP_ne_nil _ _

/-- A separator is a boundary between pieces. -/
theorem cutAt_append (xs ys : List Char) :
    cutAt sep (xs ++ sep :: ys) = cutAt sep xs ++ cutAt sep ys := by
  simp only [cutAt_eq_splitOn, List.splitOn_append_cons_self]

/-- The pieces, put together again, are the text. -/
theorem intercalate_cutAt (cs : List Char) : [sep].intercalate (cutAt sep cs) = cs := by
  rw [cutAt_eq_splitOn, List.intercalate_splitOn]

/-- What is put together from pieces without a separator comes apart into these pieces. -/
theorem cutAt_intercalate {pieces : List (List Char)} (hfree : ∀ p ∈ pieces, sep ∉ p)
    (hne : pieces ≠ []) : cutAt sep ([sep].intercalate pieces) = pieces := by
  rw [cutAt_eq_splitOn, List.splitOn_intercalate sep hfree hne]

/-- Putting pieces together may be done in two parts, with a separator between them. -/
theorem intercalate_append {front back : List (List Char)} (hfront : front ≠ [])
    (hback : back ≠ []) :
    [sep].intercalate (front ++ back) =
      [sep].intercalate front ++ sep :: [sep].intercalate back := by
  induction front with
  | nil => exact absurd rfl hfront
  | cons p front ih =>
      cases front with
      | nil =>
          obtain ⟨q, back, rfl⟩ := List.exists_cons_of_ne_nil hback
          simp [List.intercalate_cons_cons]
      | cons p' front =>
          have hrest := ih (by simp)
          rw [List.cons_append] at hrest ⊢
          rw [List.cons_append, List.intercalate_cons_cons, hrest, List.intercalate_cons_cons]
          simp

/-- What is put in front of a text without the separator is put in front of the first piece. -/
theorem cutAt_append_left (hfree : sep ∉ lead) (text : List Char) :
    ∃ first others, cutAt sep text = first :: others ∧
      cutAt sep (lead ++ text) = (lead ++ first) :: others := by
  induction lead with
  | nil =>
      obtain ⟨first, others, hcut⟩ := List.exists_cons_of_ne_nil (cutAt_ne_nil sep text)
      exact ⟨first, others, hcut, hcut⟩
  | cons c lead ih =>
      obtain ⟨hc, hlead⟩ := not_or.1 (fun h => hfree (List.mem_cons.2 h))
      obtain ⟨first, others, hcut, hlonger⟩ := ih hlead
      refine ⟨first, others, hcut, ?_⟩
      rw [List.cons_append, cutAt, if_neg (Ne.symm hc), hlonger]
      rfl

/-- What is put behind a text without the separator is put behind the last piece. -/
theorem cutAt_append_right (hfree : sep ∉ trail) (text : List Char) :
    ∃ others last, cutAt sep text = others ++ [last] ∧
      cutAt sep (text ++ trail) = others ++ [last ++ trail] := by
  induction text with
  | nil =>
      obtain ⟨first, others, hnil, hcut⟩ := cutAt_append_left hfree []
      obtain ⟨rfl, rfl⟩ : [] = first ∧ [] = others := by simpa [cutAt] using hnil
      exact ⟨[], [], hnil, by simpa using hcut⟩
  | cons c text ih =>
      obtain ⟨others, last, hcut, hlonger⟩ := ih
      rw [List.cons_append, cutAt, cutAt, hcut, hlonger]
      by_cases hc : c = sep
      · exact ⟨[] :: others, last, by simp [hc], by simp [hc]⟩
      · cases others with
        | nil => exact ⟨[], c :: last, by simp [hc], by simp [hc]⟩
        | cons p others => exact ⟨(c :: p) :: others, last, by simp [hc], by simp [hc]⟩

/-! ## Pieces at a pattern -/

theorem splitFrom_ne_nil (skip : Nat) (cs : List Char) : splitFrom pat skip cs ≠ [] := by
  induction cs generalizing skip with
  | nil => simp [splitFrom]
  | cons c cs ih =>
      cases skip with
      | succ n => exact ih n
      | zero =>
          rw [splitFrom]
          split
          · simp
          · split <;> simp

/-- Where the pattern stands, a piece ends. -/
theorem splitFrom_self (hpat : pat ≠ []) :
    splitFrom pat 0 (pat ++ rest) = [] :: splitFrom pat 0 rest := by
  have hskip : ∀ (passed : List Char), splitFrom pat passed.length (passed ++ rest)
      = splitFrom pat 0 rest := by
    intro passed
    induction passed with
    | nil => rfl
    | cons c passed ih => exact ih
  obtain ⟨c, tail, rfl⟩ := List.exists_cons_of_ne_nil hpat
  have hhere : (c :: tail).isPrefixOf (c :: (tail ++ rest)) = true := by simp
  rw [List.cons_append, splitFrom, if_pos hhere, List.length_cons, Nat.add_sub_cancel, hskip]

/-- What holds no beginning of an occurrence goes to the first piece. -/
theorem splitFrom_append (hfree : ∀ b, b <:+ head → b ≠ [] → ¬ pat <+: b ++ rest) :
    splitFrom pat 0 (head ++ rest) = (splitFrom pat 0 rest).modifyHead (head ++ ·) := by
  induction head with
  | nil => cases h : splitFrom pat 0 rest <;> simp [h]
  | cons c head ih =>
      have hrest := ih fun b hb => hfree b (hb.trans (List.suffix_cons c head))
      have hhere : ¬ pat.isPrefixOf (c :: (head ++ rest)) = true := by
        rw [List.isPrefixOf_iff_prefix]
        exact hfree (c :: head) List.suffix_rfl (by simp)
      rw [List.cons_append, splitFrom, if_neg hhere, hrest]
      cases hpieces : splitFrom pat 0 rest with
      | nil => exact absurd hpieces (splitFrom_ne_nil 0 rest)
      | cons p ps => simp

/-! ## Trimming -/

theorem dropWhile_of_head (hfirst : text.head? ≠ some c) : text.dropWhile (· == c) = text := by
  cases text with
  | nil => rfl
  | cons x xs => exact List.dropWhile_cons_of_neg (by simpa using hfirst)

theorem trimEnd_eq (hlast : text.getLast? ≠ some c) : trimEnd c text = text := by
  rw [trimEnd, dropWhile_of_head (by rwa [List.head?_reverse]), List.reverse_reverse]

theorem trimEnd_append_self (hlast : text.getLast? ≠ some c) :
    trimEnd c (text ++ [c]) = text := by
  rw [trimEnd, List.reverse_append, List.reverse_singleton, List.singleton_append,
    List.dropWhile_cons_of_pos (by simp)]
  exact trimEnd_eq hlast

theorem trimBoth_eq (hfirst : text.head? ≠ some c) (hlast : text.getLast? ≠ some c) :
    trimBoth c text = text := by
  rw [trimBoth, dropWhile_of_head hfirst, trimEnd_eq hlast]

/-! ## Blanks at the ends -/

/-- Blanks in front are taken off. -/
theorem trimBlank_append_left (hlead : ∀ c ∈ lead, isBlank c = true) (text : List Char) :
    trimBlank (lead ++ text) = trimBlank text := by
  rw [trimBlank, List.dropWhile_append_of_pos hlead, trimBlank]

/-- Blanks behind are taken off. -/
theorem trimBlank_append_right (htrail : ∀ c ∈ trail, isBlank c = true) (text : List Char) :
    trimBlank (text ++ trail) = trimBlank text := by
  have hback : ∀ c ∈ trail.reverse, isBlank c = true := fun c hc => htrail c (List.mem_reverse.1 hc)
  rw [trimBlank, trimBlank, List.dropWhile_append]
  split
  · rename_i hall
    have happend : (trail ++ []).dropWhile isBlank = [].dropWhile isBlank :=
      List.dropWhile_append_of_pos htrail
    have hnone : trail.dropWhile isBlank = [] := by simpa using happend
    simp [hnone, List.isEmpty_iff.1 hall]
  · rw [List.reverse_append, List.dropWhile_append_of_pos hback]

/-- A text with no blank at its ends stays as it is. -/
theorem trimBlank_eq (hfirst : ∀ c ∈ text.head?, isBlank c = false)
    (hlast : ∀ c ∈ text.getLast?, isBlank c = false) : trimBlank text = text := by
  have hkeep : ∀ (cs : List Char), (∀ c ∈ cs.head?, isBlank c = false) →
      cs.dropWhile isBlank = cs := by
    intro cs hcs
    cases cs with
    | nil => rfl
    | cons c cs => exact List.dropWhile_cons_of_neg (by simp [hcs c (by simp)])
  rw [trimBlank, hkeep text hfirst, hkeep text.reverse (by rwa [List.head?_reverse]),
    List.reverse_reverse]

/-- A text is what is left of it with blanks around. -/
theorem exists_blanks (text : List Char) : ∃ lead trail, text = lead ++ trimBlank text ++ trail ∧
    (∀ c ∈ lead, isBlank c = true) ∧ ∀ c ∈ trail, isBlank c = true := by
  have hsplit : ∀ (cs : List Char), ∃ front, cs = front ++ cs.dropWhile isBlank ∧
      ∀ c ∈ front, isBlank c = true := fun cs =>
    ⟨cs.takeWhile isBlank, List.takeWhile_append_dropWhile.symm, fun c hc =>
      List.all_eq_true.1 List.all_takeWhile c hc⟩
  obtain ⟨lead, htext, hlead⟩ := hsplit text
  obtain ⟨back, hrest, hback⟩ := hsplit (text.dropWhile isBlank).reverse
  refine ⟨lead, back.reverse, ?_, hlead, fun c hc => hback c (List.mem_reverse.1 hc)⟩
  have hforward := congrArg List.reverse hrest
  rw [List.reverse_reverse, List.reverse_append] at hforward
  rw [List.append_assoc, trimBlank, ← hforward]
  exact htext

/-- What is left of a text is known by its ends. -/
theorem trimBlank_eq_iff {body : List Char} (hfirst : ∀ c ∈ body.head?, isBlank c = false)
    (hlast : ∀ c ∈ body.getLast?, isBlank c = false) :
    trimBlank text = body ↔ ∃ lead trail, text = lead ++ body ++ trail ∧
      (∀ c ∈ lead, isBlank c = true) ∧ ∀ c ∈ trail, isBlank c = true := by
  constructor
  · rintro rfl
    exact exists_blanks text
  · rintro ⟨lead, trail, rfl, hlead, htrail⟩
    rw [trimBlank_append_right htrail, trimBlank_append_left hlead, trimBlank_eq hfirst hlast]

/-! ## Occurrence -/

/-- `occurs` is the library's relation between a text and what stands in it. -/
theorem occurs_iff_infix : occurs pat text = true ↔ pat <:+: text := by
  rw [occurs_iff]
  exact exists_congr fun _ => exists_congr fun _ => eq_comm

end Deadwood.Text
