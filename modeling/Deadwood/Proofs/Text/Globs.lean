/-
  Patterns for directories.

  1. **Being inside a directory (`Within`)** — the directory stands in the path between slashes, the
     beginning of the path counting as one.  Read as components: those of the directory follow each
     other in the path, and there is a component behind them (`within_iff_components`).

  2. **`**/dir/**` (`isMatch_anywhere`)** — erasing the stars and the slashes leaves the directory, so
     the pattern matches the paths inside of it and no others.

  3. **`dir/**` (`isMatch_front`)** — the slash goes with the stars before the text is looked at, so
     the pattern also matches what merely begins with the name of the directory (`Overruns`).
-/
import Deadwood.Glob
import Deadwood.Proofs.Text.Pieces

namespace Deadwood.Glob

open Text

variable {dir text : String} {name cs : List Char}

/-- The name of a directory in a pattern: no stars, and no slash at its ends. -/
structure Directory (dir : String) : Prop where
  ne_empty : dir ≠ ""
  literal : '*' ∉ dir.toList
  first : dir.toList.head? ≠ some '/'
  last : dir.toList.getLast? ≠ some '/'

/-- The path leads through the directory. -/
def Within (dir text : String) : Prop :=
  '/' :: dir.toList ++ ['/'] <:+: '/' :: text.toList

instance : Decidable (Within dir text) :=
  decidable_of_iff _ occurs_iff_infix

/-- The path begins with the name of the directory, but does not lead through it. -/
def Overruns (dir text : String) : Prop :=
  dir.toList <+: text.toList ∧ ¬ Within dir text

/-! ## Components -/

/-- Between slashes is the same as between components. -/
theorem infix_iff_components :
    '/' :: name ++ ['/'] <:+: '/' :: cs ↔
      ∃ before behind, cutAt '/' cs = before ++ cutAt '/' name ++ behind ∧ behind ≠ [] := by
  constructor
  · rintro ⟨front, back, hcs⟩
    cases front with
    | nil =>
        obtain rfl : cs = name ++ '/' :: back := by simpa using hcs.symm
        exact ⟨[], cutAt '/' back, by rw [cutAt_append, List.nil_append], cutAt_ne_nil _ _⟩
    | cons slash front =>
        obtain rfl : cs = front ++ '/' :: (name ++ '/' :: back) := by
          simpa using (List.cons.inj hcs).2.symm
        exact ⟨cutAt '/' front, cutAt '/' back, by simp only [cutAt_append, List.append_assoc],
          cutAt_ne_nil _ _⟩
  · rintro ⟨before, behind, hcut, hbehind⟩
    have hname := cutAt_ne_nil '/' name
    have hcs : cs = ['/'].intercalate (before ++ cutAt '/' name ++ behind) := by
      rw [← hcut, intercalate_cutAt]
    rw [intercalate_append (by simp [hname]) hbehind] at hcs
    cases hbefore : before with
    | nil =>
        rw [hbefore, List.nil_append, intercalate_cutAt] at hcs
        exact ⟨[], ['/'].intercalate behind, by simp [hcs]⟩
    | cons p ps =>
        rw [intercalate_append (by simp [hbefore]) hname, intercalate_cutAt] at hcs
        exact ⟨'/' :: ['/'].intercalate before, ['/'].intercalate behind, by simp [hcs]⟩

/-! ## The spelling with stars in front -/

/-- No occurrence of a pattern that begins with a star begins in a text without stars. -/
theorem not_prefix_of_literal {pat b rest : List Char} (hliteral : '*' ∉ name) (hb : b <:+ name)
    (hne : b ≠ []) : ¬ '*' :: pat <+: b ++ rest := by
  obtain ⟨c, b, rfl⟩ := List.exists_cons_of_ne_nil hne
  rw [List.cons_append, List.cons_prefix_cons]
  rintro ⟨rfl, -⟩
  exact hliteral (hb.subset List.mem_cons_self)

/-- Erasing the stars and slashes leaves the directory. -/
theorem erase_ends (hliteral : '*' ∉ name) :
    eraseText ['/', '*', '*'] (eraseText ['*', '*', '/'] (['*', '*', '/'] ++ name ++ ['/', '*', '*']))
      = name := by
  have hfront : eraseText ['*', '*', '/'] (['*', '*', '/'] ++ name ++ ['/', '*', '*']) =
      name ++ ['/', '*', '*'] := by
    rw [eraseText, splitOnText, List.append_assoc, splitFrom_self (by simp),
      splitFrom_append fun b hb hne => not_prefix_of_literal hliteral hb hne]
    simp [show splitFrom ['*', '*', '/'] 0 ['/', '*', '*'] = [['/', '*', '*']] by decide]
  -- A slash may end the name, so an occurrence could begin one character early: the star that would
  -- have to follow is the slash behind the name.
  have hfree : ∀ b, b <:+ name → b ≠ [] → ¬ ['/', '*', '*'] <+: b ++ ['/', '*', '*'] := by
    intro b hb hne hpre
    obtain ⟨c, b, rfl⟩ := List.exists_cons_of_ne_nil hne
    have hrest := (List.cons_prefix_cons.1 hpre).2
    by_cases hlast : b = []
    · exact absurd (hlast ▸ hrest) (by decide)
    · exact not_prefix_of_literal hliteral ((List.suffix_cons c b).trans hb) hlast hrest
  rw [hfront, eraseText, splitOnText, splitFrom_append hfree]
  simp [show splitFrom ['/', '*', '*'] 0 ['/', '*', '*'] = [[], []] by decide]

theorem hasDirectory_iff : hasDirectory name cs = true ↔ '/' :: name ++ ['/'] <:+: '/' :: cs := by
  rw [hasDirectory, Bool.or_eq_true, occurs_iff_infix, List.isPrefixOf_iff_prefix, or_comm,
    List.infix_cons_iff, List.cons_append, List.cons_prefix_cons]
  simp

/-- The pattern matches the paths that lead through the directory. -/
theorem isMatch_anywhere (hdir : Directory dir) :
    isMatch ("**/" ++ dir ++ "/**") text = true ↔ Within dir text := by
  have hpattern : ("**/" ++ dir ++ "/**").toList =
      ['*', '*', '/'] ++ dir.toList ++ ['/', '*', '*'] := by simp
  have hslash : (['*', '*', '/'] ++ dir.toList ++ ['/', '*', '*']).contains '/' = true := by simp
  have hends : ['*', '*', '/'].isPrefixOf (['*', '*', '/'] ++ dir.toList ++ ['/', '*', '*']) = true ∧
      ['/', '*', '*'].isSuffixOf (['*', '*', '/'] ++ dir.toList ++ ['/', '*', '*']) = true := by
    rw [List.isPrefixOf_iff_prefix, List.isSuffixOf_iff_suffix]
    exact ⟨by simp, List.suffix_append _ _⟩
  rw [isMatch, hpattern, matchesList]
  simp only [hslash, hends, erase_ends hdir.literal, trimBoth_eq hdir.first hdir.last,
    hasDirectory_iff, Within, Bool.not_true, Bool.false_and, Bool.false_eq_true, if_false,
    Bool.and_self, if_true]

/-! ## The spelling without -/

/-- What the pattern asks of the head of a path is all it asks. -/
theorem betweenMatches_front (hne : name ≠ []) (hlast : name.getLast? ≠ some '/') :
    betweenMatches (name ++ ['/']) [] cs = true ↔
      '/' :: name ++ ['/'] <:+: cs ∨ name <+: cs := by
  have hnonempty : name.isEmpty = false := by simpa using hne
  simp only [betweenMatches, trimEnd_append_self hlast, hnonempty, headMatches, Bool.false_or,
    List.dropWhile_nil, List.isEmpty_nil, Bool.true_or, Bool.and_true, Bool.or_eq_true,
    occurs_iff_infix, List.isPrefixOf_iff_prefix]
  exact or_comm

/-- The pattern matches the paths that lead through the directory, and those that begin with its
name. -/
theorem isMatch_front (hdir : Directory dir) :
    isMatch (dir ++ "/**") text = true ↔ Within dir text ∨ Overruns dir text := by
  have hpattern : (dir ++ "/**").toList = dir.toList ++ ['/', '*', '*'] := by simp
  have hne : dir.toList ≠ [] := by simpa using hdir.ne_empty
  have hslash : (dir.toList ++ ['/', '*', '*']).contains '/' = true := by simp
  have hfront : ['*', '*', '/'].isPrefixOf (dir.toList ++ ['/', '*', '*']) = false := by
    rw [Bool.eq_false_iff, Ne, List.isPrefixOf_iff_prefix]
    exact not_prefix_of_literal hdir.literal List.suffix_rfl hne
  have hcut : splitOnText ['*', '*'] (dir.toList ++ ['/', '*', '*']) = [dir.toList ++ ['/'], []] := by
    rw [splitOnText,
      splitFrom_append fun b hb hne => not_prefix_of_literal hdir.literal hb hne]
    simp [show splitFrom ['*', '*'] 0 ['/', '*', '*'] = [['/'], []] by decide]
  have hmatch : isMatch (dir ++ "/**") text = true ↔
      '/' :: dir.toList ++ ['/'] <:+: text.toList ∨ dir.toList <+: text.toList := by
    rw [isMatch, hpattern, matchesList]
    simp only [hslash, hfront, hcut, betweenMatches_front hne hdir.last, Bool.not_true,
      Bool.false_and, Bool.false_eq_true, if_false]
  -- A path that begins with the directory and a slash begins with its name.
  have hwithin : Within dir text ↔
      dir.toList ++ ['/'] <+: text.toList ∨ '/' :: dir.toList ++ ['/'] <:+: text.toList := by
    rw [Within, List.infix_cons_iff, List.cons_append, List.cons_prefix_cons]
    simp
  rw [hmatch, Overruns]
  constructor
  · rintro (hinside | hname)
    · exact .inl (hwithin.2 (.inr hinside))
    · by_cases hin : Within dir text
      · exact .inl hin
      · exact .inr ⟨hname, hin⟩
  · rintro (hin | ⟨hname, -⟩)
    · exact (hwithin.1 hin).symm.imp_right fun hpre => (List.prefix_append _ _).trans hpre
    · exact .inr hname

/-! ## Both spellings -/

/-- What the two spellings of a pattern for a directory match. -/
structure Spellings (dir text : String) : Prop where
  /-- With stars in front: the paths that lead through the directory. -/
  anywhere : isMatch ("**/" ++ dir ++ "/**") text = true ↔ Within dir text
  /-- Leading through the directory, in components: they follow each other, and one follows them. -/
  components : Within dir text ↔
    ∃ before behind, cutAt '/' text.toList = before ++ cutAt '/' dir.toList ++ behind ∧ behind ≠ []
  /-- Without: those, and the paths that only begin with its name. -/
  front : isMatch (dir ++ "/**") text = true ↔ Within dir text ∨ Overruns dir text
  /-- So the spellings part on the latter, and only there. -/
  part : isMatch (dir ++ "/**") text = isMatch ("**/" ++ dir ++ "/**") text ↔ ¬ Overruns dir text

theorem spellings_of_directory (hdir : Directory dir) (text : String) : Spellings dir text where
  anywhere := isMatch_anywhere hdir
  components := infix_iff_components
  front := isMatch_front hdir
  part := by
    rw [Bool.eq_iff_iff, isMatch_front hdir, isMatch_anywhere hdir]
    constructor
    · intro hsame hover
      exact hover.2 (hsame.1 (.inr hover))
    · intro hnone
      exact or_iff_left hnone

/-- A directory in a directory, and a file somewhere below it. -/
theorem spellings_nested : Directory "App/Generated" ∧
    Spellings "App/Generated" "src/App/Generated/Api/Client.swift" :=
  have hdir : Directory "App/Generated" :=
    ⟨by decide, by decide, by decide, by decide⟩
  ⟨hdir, spellings_of_directory hdir _⟩

/-- Not both spellings match whole directories: the one without stars in front also takes a
directory whose name goes on. -/
theorem spellings_not_whole : ¬ ∀ dir, Directory dir → ∀ text,
    (isMatch ("**/" ++ dir ++ "/**") text = true ↔ Within dir text) ∧
      (isMatch (dir ++ "/**") text = true ↔ Within dir text) := by
  intro hwhole
  have hdir : Directory "Generated" := ⟨by decide, by decide, by decide, by decide⟩
  have hmatch : isMatch ("Generated" ++ "/**") "GeneratedCode/Api.swift" = true := by decide
  exact absurd ((hwhole "Generated" hdir "GeneratedCode/Api.swift").2.1 hmatch) (by decide)

end Deadwood.Glob
