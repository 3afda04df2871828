/-
  The grammar of directives.

  1. **Characters (`isBlank_of_isWord`)** — blanks, word characters and commas exclude each other, so
     blanks around a name never belong to it (`parameterNames_append`).

  2. **Grammar (`Spelled`)** — the three forms of a directive, as they are written.  The recogniser
     accepts these and nothing else (`parse?_eq_some_iff`).

  3. **Pattern (`pattern`)** — the same language as a pattern with groups.  How its overlapping classes
     share the blanks among them is settled by backtracking; every way to do it gives the same names,
     so the first way is as good as any (`mem_ways_pattern`).

  4. **Writing (`parse?_written`)** — a list of names can be read back.
-/
import Deadwood.Directive
import Deadwood.Proofs.Text.Patterns
import Deadwood.Proofs.Text.Pieces

namespace Deadwood.Directive

open Text

variable {d : Directive} {c : Char} {lead trail items cs : List Char}

/-! ## Characters -/

/-- The ranges of blanks and of word characters have nothing in common. -/
theorem ranges_apart : ∀ b ∈ blankRanges, ∀ w ∈ wordRanges, b.2 < w.1 ∨ w.2 < b.1 := by
  decide +kernel

theorem isBlank_of_isWord (hc : isWord c = true) : isBlank c = false := by
  rw [Bool.eq_false_iff]
  intro hblank
  simp only [isWord, isBlank, List.any_eq_true, Bool.and_eq_true, decide_eq_true_eq] at hc hblank
  obtain ⟨w, hw, hwc⟩ := hc
  obtain ⟨b, hb, hbc⟩ := hblank
  have := ranges_apart b hb w hw
  omega

theorem ne_comma_of_isWord (hc : isWord c = true) : c ≠ ',' := by
  rintro rfl
  exact absurd hc (by decide +kernel)

theorem ne_comma_of_isBlank (hc : isBlank c = true) : c ≠ ',' := by
  rintro rfl
  exact absurd hc (by decide)

theorem isItem_of_isBlank (hc : isBlank c = true) : isItem c = true := by
  simp [isItem, hc]

theorem isItem_of_isWord (hc : isWord c = true) : isItem c = true := by
  simp [isItem, hc]

/-- Blanks at the ends of the list of names change nothing. -/
theorem parameterNames_append (hlead : ∀ c ∈ lead, isBlank c = true)
    (htrail : ∀ c ∈ trail, isBlank c = true) (items : List Char) :
    parameterNames (lead ++ items ++ trail) = parameterNames items := by
  have hfree : ∀ {cs : List Char}, (∀ c ∈ cs, isBlank c = true) → ',' ∉ cs :=
    fun hcs hmem => ne_comma_of_isBlank (hcs _ hmem) rfl
  have hfront : parameterNames (lead ++ items) = parameterNames items := by
    obtain ⟨first, others, hcut, hlonger⟩ := cutAt_append_left (hfree hlead) items
    rw [parameterNames, parameterNames, hcut, hlonger, List.map_cons, List.map_cons,
      trimBlank_append_left hlead]
  obtain ⟨others, last, hcut, hlonger⟩ := cutAt_append_right (hfree htrail) (lead ++ items)
  rw [← hfront, parameterNames, parameterNames, hcut, hlonger, List.map_append, List.map_append,
    List.map_singleton, List.map_singleton, trimBlank_append_right htrail]

/-! ## The three forms -/

/-- What a text with a directive looks like. -/
inductive Spelled : List Char → Directive → Prop
  /-- The keyword alone. -/
  | ignore {lead trail : List Char} (hlead : ∀ c ∈ lead, isBlank c = true)
      (htrail : ∀ c ∈ trail, isBlank c = true) :
      Spelled (lead ++ keyword ++ trail) .ignore
  /-- The keyword, and that all is meant. -/
  | ignoreAll {lead trail : List Char} (hlead : ∀ c ∈ lead, isBlank c = true)
      (htrail : ∀ c ∈ trail, isBlank c = true) :
      Spelled (lead ++ (keyword ++ ":all".toList) ++ trail) .ignoreAll
  /-- The keyword, and a list of names behind a blank. -/
  | parameters {lead : List Char} {first : Char} {items : List Char}
      (hlead : ∀ c ∈ lead, isBlank c = true) (hfirst : isBlank first = true) (hne : items ≠ [])
      (hitems : ∀ c ∈ items, isItem c = true) :
      Spelled (lead ++ (keyword ++ ":parameters".toList) ++ first :: items)
        (.ignoreParameters (parameterNames items))

/-- The recogniser past the keyword. -/
theorem parse?_eq {comment : String} {tail : List Char}
    (hcomment : comment.toList = lead ++ (keyword ++ tail))
    (hlead : ∀ c ∈ lead, isBlank c = true) : parse? comment = ofTail? tail := by
  have hbody : comment.toList.dropWhile isBlank = keyword ++ tail := by
    rw [hcomment, List.dropWhile_append_of_pos hlead]
    rfl
  have hkeyword : keyword.isPrefixOf (keyword ++ tail) = true := by simp
  rw [parse?, hbody, if_pos hkeyword, List.drop_left]

theorem parse?_of_spelled {comment : String} (h : Spelled comment.toList d) :
    parse? comment = some d := by
  generalize htext : comment.toList = text at h
  have hcolon : isBlank ':' = false := by decide
  cases h with
  | ignore hlead htrail =>
      rw [parse?_eq (by rw [htext, List.append_assoc]) hlead, ofTail?,
        if_pos (List.all_eq_true.2 htrail)]
  | @ignoreAll lead trail hlead htrail =>
      have hsome : (":all".toList ++ trail).all isBlank = false := by
        simp [hcolon]
      have hall : ":all".toList.isPrefixOf (":all".toList ++ trail) = true := by simp
      have hdrop : ((":all".toList ++ trail).drop 4).all isBlank = true :=
        List.all_eq_true.2 htrail
      have hform : comment.toList = lead ++ (keyword ++ (":all".toList ++ trail)) := by
        simp [htext]
      rw [parse?_eq hform hlead, ofTail?, hsome, if_neg (by simp), if_pos hall, if_pos hdrop]
  | @parameters lead first items hlead hfirst hne hitems =>
      have hsome : (":parameters".toList ++ first :: items).all isBlank = false := by
        simp [hcolon]
      have hall : ":all".toList.isPrefixOf (":parameters".toList ++ first :: items) = false :=
        rfl
      have hhere : ":parameters".toList.isPrefixOf (":parameters".toList ++ first :: items) = true := by
        simp
      have hdrop : (":parameters".toList ++ first :: items).drop 11 = first :: items := by simp
      have hlist : (isBlank first && !items.isEmpty && items.all isItem) = true := by
        simpa [hfirst, hne] using hitems
      have hform : comment.toList =
          lead ++ (keyword ++ (":parameters".toList ++ first :: items)) := by simp [htext]
      rw [parse?_eq hform hlead, ofTail?, hsome, if_neg (by simp), hall, if_neg (by simp),
        if_pos hhere, hdrop]
      exact if_pos hlist

/-- What the recogniser accepts behind the keyword. -/
theorem spelled_of_ofTail? {tail : List Char} (hlead : ∀ c ∈ lead, isBlank c = true)
    (h : ofTail? tail = some d) : Spelled (lead ++ (keyword ++ tail)) d := by
  rw [ofTail?] at h
  split at h
  · rename_i hblank
    cases h
    rw [← List.append_assoc]
    exact .ignore hlead (List.all_eq_true.1 hblank)
  split at h
  · rename_i hall
    obtain ⟨trail, rfl⟩ := List.isPrefixOf_iff_prefix.1 hall
    split at h
    · rename_i htrail
      cases h
      have hblank : ∀ c ∈ trail, isBlank c = true := List.all_eq_true.1 htrail
      simpa using Spelled.ignoreAll hlead hblank
    · cases h
  split at h
  · rename_i hparameters
    obtain ⟨list, rfl⟩ := List.isPrefixOf_iff_prefix.1 hparameters
    have hdrop : (":parameters".toList ++ list).drop 11 = list := by simp
    rw [hdrop] at h
    cases list with
    | nil => cases h
    | cons first items =>
        simp only [Bool.and_eq_true, Bool.not_eq_true', List.isEmpty_eq_false_iff] at h
        split at h
        · rename_i hlist
          cases h
          have hspelled := Spelled.parameters hlead hlist.1.1 hlist.1.2 (List.all_eq_true.1 hlist.2)
          simpa using hspelled
        · cases h
  · cases h

theorem spelled_of_parse? {comment : String} (h : parse? comment = some d) :
    Spelled comment.toList d := by
  have hlead : ∀ c ∈ comment.toList.takeWhile isBlank, isBlank c = true :=
    fun c hc => List.all_eq_true.1 List.all_takeWhile c hc
  have htext : comment.toList =
      comment.toList.takeWhile isBlank ++ comment.toList.dropWhile isBlank :=
    List.takeWhile_append_dropWhile.symm
  rw [parse?] at h
  split at h
  · rename_i hkeyword
    obtain ⟨tail, htail⟩ := List.isPrefixOf_iff_prefix.1 hkeyword
    rw [← htail, List.drop_left] at h
    rw [htext, ← htail]
    exact spelled_of_ofTail? hlead h
  · cases h

theorem parse?_eq_some_iff {comment : String} :
    parse? comment = some d ↔ Spelled comment.toList d :=
  ⟨spelled_of_parse?, parse?_of_spelled⟩

/-! ## The pattern -/

/-- Behind the keyword: what is meant, or nothing. -/
def scope : Pattern :=
  .either
    (.either
      (.seq (.text ":".toList) (.group 1 (.text "all".toList)))
      (.seq (.text ":parameters".toList)
        (.seq (.seq (.one isBlank) (.many isBlank))
          (.group 2 (.seq (.one isItem) (.many isItem))))))
    (.text [])

/-- A directive, with blanks around it. -/
def pattern : Pattern :=
  .seq (.many isBlank) (.seq (.text keyword) (.seq scope (.many isBlank)))

/-- What the groups of a reading say. -/
def ofGroups (groups : List (Nat × List Char)) : Directive :=
  if (groups.lookup 1).isSome then .ignoreAll
  else match groups.lookup 2 with
    | some items => .ignoreParameters (parameterNames items)
    | none => .ignore

/-- What the scope spans, with its groups. -/
theorem scope_spans {before piece after : List Char} {groups : List (Nat × List Char)} :
    scope.Spans before piece after groups ↔
      (piece = ":all".toList ∧ groups = [(1, "all".toList)]) ∨
      (∃ first blanks item items, piece = ":parameters".toList ++ (first :: blanks ++ item :: items) ∧
        groups = [(2, item :: items)] ∧ isBlank first = true ∧ (∀ c ∈ blanks, isBlank c = true) ∧
        isItem item = true ∧ ∀ c ∈ items, isItem c = true) ∨
      (piece = [] ∧ groups = []) := by
  constructor
  · rintro ((⟨_, _, _, _, rfl, rfl, ⟨rfl, rfl⟩, _, rfl, rfl, rfl⟩ |
      ⟨_, _, _, _, rfl, rfl, ⟨rfl, rfl⟩, _, _, _, _, rfl, rfl,
        ⟨_, blanks, _, _, rfl, rfl, ⟨⟨first, rfl, hfirst⟩, rfl⟩, hblanks, rfl⟩,
        _, rfl, _, items, _, _, rfl, rfl, ⟨⟨item, rfl, hitem⟩, rfl⟩, hitems, rfl⟩) | ⟨rfl, rfl⟩)
    · exact .inl ⟨rfl, rfl⟩
    · exact .inr (.inl ⟨first, blanks, item, items, rfl, rfl, hfirst, hblanks, hitem, hitems⟩)
    · exact .inr (.inr ⟨rfl, rfl⟩)
  · rintro (⟨rfl, rfl⟩ | ⟨first, blanks, item, items, rfl, rfl, hfirst, hblanks, hitem, hitems⟩ |
      ⟨rfl, rfl⟩)
    · exact .inl (.inl ⟨":".toList, "all".toList, [], [(1, "all".toList)], rfl, rfl, ⟨rfl, rfl⟩,
        [], rfl, rfl, rfl⟩)
    · exact .inl (.inr ⟨":parameters".toList, first :: blanks ++ item :: items, [],
        [(2, item :: items)], rfl, rfl, ⟨rfl, rfl⟩,
        first :: blanks, item :: items, [], [(2, item :: items)], rfl, rfl,
        ⟨[first], blanks, [], [], rfl, rfl, ⟨⟨first, rfl, hfirst⟩, rfl⟩, hblanks, rfl⟩,
        [], rfl, [item], items, [], [], rfl, rfl, ⟨⟨item, rfl, hitem⟩, rfl⟩, hitems, rfl⟩)
    · exact .inr ⟨rfl, rfl⟩

/-- What the pattern spans, with its groups. -/
theorem pattern_spans {groups : List (Nat × List Char)} :
    pattern.Spans [] cs [] groups ↔ ∃ lead piece trail before after,
      cs = lead ++ (keyword ++ piece) ++ trail ∧ (∀ c ∈ lead, isBlank c = true) ∧
        (∀ c ∈ trail, isBlank c = true) ∧ scope.Spans before piece after groups := by
  constructor
  · rintro ⟨lead, _, _, _, rfl, rfl, ⟨hlead, rfl⟩, _, _, _, _, rfl, rfl, ⟨rfl, rfl⟩,
      piece, trail, held, _, rfl, rfl, hscope, htrail, rfl⟩
    exact ⟨lead, piece, trail, _, _, by simp, hlead, htrail, by simpa using hscope⟩
  · rintro ⟨lead, piece, trail, _, _, rfl, hlead, htrail, hscope⟩
    exact ⟨lead, keyword ++ (piece ++ trail), [], groups, by simp, rfl, ⟨hlead, rfl⟩,
      keyword, piece ++ trail, [], groups, rfl, rfl, ⟨rfl, rfl⟩,
      piece, trail, groups, [], rfl, by simp, scope_spans.2 (scope_spans.1 hscope), htrail, rfl⟩

/-- What the pattern spans is spelled as its groups say.  The groups hold the items from some place in
the blanks behind the keyword to some place in the blanks at the end; the names are the same. -/
theorem spelled_of_spans {groups : List (Nat × List Char)} (h : pattern.Spans [] cs [] groups) :
    Spelled cs (ofGroups groups) := by
  obtain ⟨lead, piece, trail, _, _, rfl, hlead, htrail, hscope⟩ := pattern_spans.1 h
  rcases scope_spans.1 hscope with ⟨rfl, rfl⟩ |
    ⟨first, blanks, item, items, rfl, rfl, hfirst, hblanks, hitem, hitems⟩ | ⟨rfl, rfl⟩
  · exact .ignoreAll hlead htrail
  · have hall : ∀ c ∈ blanks ++ item :: items ++ trail, isItem c = true := by
      intro c hc
      simp only [List.mem_append, List.mem_cons] at hc
      rcases hc with (hc | rfl | hc) | hc
      · exact isItem_of_isBlank (hblanks c hc)
      · exact hitem
      · exact hitems c hc
      · exact isItem_of_isBlank (htrail c hc)
    have hspelled := Spelled.parameters hlead hfirst (by simp) hall
    rw [parameterNames_append hblanks htrail] at hspelled
    simpa [ofGroups] using hspelled
  · simpa [ofGroups] using Spelled.ignore hlead htrail

/-- What is spelled is spanned: the items may begin right behind the first blank. -/
theorem spans_of_spelled (h : Spelled cs d) :
    ∃ groups, pattern.Spans [] cs [] groups ∧ ofGroups groups = d := by
  cases h with
  | @ignore lead trail hlead htrail =>
      refine ⟨[], pattern_spans.2 ⟨lead, [], trail, [], [], by simp, hlead, htrail, ?_⟩, rfl⟩
      exact scope_spans.2 (.inr (.inr ⟨rfl, rfl⟩))
  | @ignoreAll lead trail hlead htrail =>
      refine ⟨[(1, "all".toList)],
        pattern_spans.2 ⟨lead, ":all".toList, trail, [], [], rfl, hlead, htrail, ?_⟩, rfl⟩
      exact scope_spans.2 (.inl ⟨rfl, rfl⟩)
  | @parameters lead first items hlead hfirst hne hitems =>
      obtain ⟨item, items, rfl⟩ := List.exists_cons_of_ne_nil hne
      refine ⟨[(2, item :: items)], pattern_spans.2 ⟨lead,
        ":parameters".toList ++ ([first] ++ item :: items), [], [], [], by simp, hlead, by simp, ?_⟩, rfl⟩
      exact scope_spans.2 (.inr (.inl ⟨first, [], item, items, rfl, rfl, hfirst, by simp,
        hitems item List.mem_cons_self, fun c hc => hitems c (List.mem_cons_of_mem _ hc)⟩))

/-- The recogniser finds what the search for the pattern finds. -/
theorem parse?_eq_find? (comment : String) :
    parse? comment = (pattern.whole.find? comment.toList).map fun r => ofGroups r.groups := by
  refine (Pattern.find?_whole_map fun d => ?_).symm
  rw [parse?_eq_some_iff]
  constructor
  · exact spans_of_spelled
  · rintro ⟨groups, hspans, rfl⟩
    exact spelled_of_spans hspans

/-! ## Writing -/

/-- A name in the list of a directive, with the blanks around it. -/
structure Entry where
  before : List Char
  name : List Char
  behind : List Char
  before_blank : ∀ c ∈ before, isBlank c = true
  name_word : ∀ c ∈ name, isWord c = true
  name_ne : name ≠ []
  behind_blank : ∀ c ∈ behind, isBlank c = true

namespace Entry

/-- How the entry is written. -/
def written (e : Entry) : List Char := e.before ++ e.name ++ e.behind

theorem comma_not_mem_written (e : Entry) : ',' ∉ e.written := by
  intro hmem
  simp only [written, List.mem_append] at hmem
  rcases hmem with (hmem | hmem) | hmem
  · exact ne_comma_of_isBlank (e.before_blank _ hmem) rfl
  · exact ne_comma_of_isWord (e.name_word _ hmem) rfl
  · exact ne_comma_of_isBlank (e.behind_blank _ hmem) rfl

theorem isItem_of_mem_written (e : Entry) (hc : c ∈ e.written) : isItem c = true := by
  simp only [written, List.mem_append] at hc
  rcases hc with (hc | hc) | hc
  · exact isItem_of_isBlank (e.before_blank _ hc)
  · exact isItem_of_isWord (e.name_word _ hc)
  · exact isItem_of_isBlank (e.behind_blank _ hc)

theorem trimBlank_written (e : Entry) : trimBlank e.written = e.name := by
  have hname : ∀ c ∈ e.name, isBlank c = false := fun c hc => isBlank_of_isWord (e.name_word c hc)
  exact (trimBlank_eq_iff (fun c hc => hname c (List.mem_of_mem_head? hc))
    (fun c hc => hname c (List.mem_of_mem_getLast? hc))).2
    ⟨e.before, e.behind, rfl, e.before_blank, e.behind_blank⟩

end Entry

/-- A directive for a list of parameters, the names between commas. -/
def written (entries : List Entry) : String :=
  String.ofList ("swiftdeadcode:ignore:parameters ".toList ++
    [','].intercalate (entries.map Entry.written))

theorem isItem_of_mem_intercalate {pieces : List (List Char)}
    (hpieces : ∀ piece ∈ pieces, ∀ c ∈ piece, isItem c = true)
    (hc : c ∈ [','].intercalate pieces) : isItem c = true := by
  induction pieces with
  | nil => cases hc
  | cons piece pieces ih =>
      cases pieces with
      | nil => exact hpieces piece List.mem_cons_self c (by simpa using hc)
      | cons next pieces =>
          rw [List.intercalate_cons_cons, List.mem_append, List.mem_append] at hc
          rcases hc with (hc | hc) | hc
          · exact hpieces piece List.mem_cons_self c hc
          · simp [isItem, List.mem_singleton.1 hc]
          · exact ih (fun p hp => hpieces p (List.mem_cons_of_mem _ hp)) hc

/-- What is written is read back. -/
theorem parse?_written (first : Entry) (others : List Entry) :
    parse? (written (first :: others)) =
      some (.ignoreParameters ((first :: others).map fun e => String.ofList e.name)) := by
  have hnames : parameterNames ([','].intercalate ((first :: others).map Entry.written)) =
      (first :: others).map fun e => String.ofList e.name := by
    have hfree : ∀ piece ∈ (first :: others).map Entry.written, ',' ∉ piece := by
      intro piece hpiece
      obtain ⟨e, -, rfl⟩ := List.mem_map.1 hpiece
      exact e.comma_not_mem_written
    rw [parameterNames, cutAt_intercalate hfree (by simp), List.map_map]
    have htrim : Text.trimBlank ∘ Entry.written = Entry.name := funext Entry.trimBlank_written
    have hkept : ((first :: others).map Entry.name).filter (!·.isEmpty) =
        (first :: others).map Entry.name := by
      rw [List.filter_eq_self]
      intro name hname
      obtain ⟨e, -, rfl⟩ := List.mem_map.1 hname
      simpa using e.name_ne
    rw [htrim, hkept, List.map_map, Function.comp_def]
  have hitems : ∀ c ∈ [','].intercalate ((first :: others).map Entry.written), isItem c = true := by
    intro c hc
    refine isItem_of_mem_intercalate (fun piece hpiece c hc => ?_) hc
    obtain ⟨e, -, rfl⟩ := List.mem_map.1 hpiece
    exact e.isItem_of_mem_written hc
  have hne : [','].intercalate ((first :: others).map Entry.written) ≠ [] := by
    intro hnil
    have hnone : parameterNames [] = [] := rfl
    rw [hnil, hnone] at hnames
    cases hnames
  have hintro : "swiftdeadcode:ignore:parameters ".toList =
      [] ++ (keyword ++ ":parameters".toList) ++ [' '] := by decide
  have hspelled : Spelled ([] ++ (keyword ++ ":parameters".toList) ++
      ' ' :: [','].intercalate ((first :: others).map Entry.written)) _ :=
    .parameters (by simp) (by decide) hne hitems
  rw [hnames] at hspelled
  have htext : (written (first :: others)).toList = [] ++ (keyword ++ ":parameters".toList) ++
      ' ' :: [','].intercalate ((first :: others).map Entry.written) := by
    refine String.toList_ofList.trans ?_
    rw [hintro, List.append_assoc]
    rfl
  exact parse?_of_spelled (htext ▸ hspelled)

/-! ## What a comment is read as -/

/-- The comment holds this list of parameters: at least two characters, of which the first is a
blank. -/
def Lists (comment : String) (list : List Char) : Prop :=
  ∃ lead, comment.toList = lead ++ "swiftdeadcode:ignore:parameters".toList ++ list ∧
    (∀ c ∈ lead, isBlank c = true) ∧ 2 ≤ list.length ∧ (∀ c ∈ list.head?, isBlank c = true) ∧
    ∀ c ∈ list, isWord c = true ∨ isBlank c = true ∨ c = ','

/-- The readings of a comment, as its text has them. -/
structure Reads (comment : String) : Prop where
  /-- The recogniser is the leftmost-first search for the pattern. -/
  search : parse? comment = (pattern.whole.find? comment.toList).map fun r => ofGroups r.groups
  /-- To be left alone: the keyword, with blanks around it. -/
  ignore : parse? comment = some .ignore ↔
    trimBlank comment.toList = "swiftdeadcode:ignore".toList
  /-- To be left alone with the file: the keyword and the word for all of it. -/
  ignoreAll : parse? comment = some .ignoreAll ↔
    trimBlank comment.toList = "swiftdeadcode:ignore:all".toList
  /-- For parameters: the names are what stands between the commas of the list. -/
  parameters : ∀ names, parse? comment = some (.ignoreParameters names) ↔
    ∃ list, Lists comment list ∧
      names = (((list.splitOn ',').map trimBlank).filter (!·.isEmpty)).map String.ofList
  /-- Anything else is no directive. -/
  other : parse? comment = none ↔
    trimBlank comment.toList ≠ "swiftdeadcode:ignore".toList ∧
    trimBlank comment.toList ≠ "swiftdeadcode:ignore:all".toList ∧ ¬ ∃ list, Lists comment list

theorem spelled_ignore_iff :
    Spelled cs .ignore ↔ trimBlank cs = "swiftdeadcode:ignore".toList := by
  rw [trimBlank_eq_iff (by rintro c ⟨⟩; decide) (by rintro c ⟨⟩; decide)]
  constructor
  · intro h
    cases h with
    | @ignore lead trail hlead htrail => exact ⟨lead, trail, rfl, hlead, htrail⟩
  · rintro ⟨lead, trail, rfl, hlead, htrail⟩
    exact .ignore hlead htrail

theorem spelled_ignoreAll_iff :
    Spelled cs .ignoreAll ↔ trimBlank cs = "swiftdeadcode:ignore:all".toList := by
  rw [trimBlank_eq_iff (by rintro c ⟨⟩; decide) (by rintro c ⟨⟩; decide)]
  constructor
  · intro h
    cases h with
    | @ignoreAll lead trail hlead htrail => exact ⟨lead, trail, rfl, hlead, htrail⟩
  · rintro ⟨lead, trail, rfl, hlead, htrail⟩
    exact .ignoreAll hlead htrail

theorem isItem_iff : isItem c = true ↔ isWord c = true ∨ isBlank c = true ∨ c = ',' := by
  simp [isItem, or_assoc]

theorem spelled_parameters_iff {comment : String} {names : List String} :
    Spelled comment.toList (.ignoreParameters names) ↔ ∃ list, Lists comment list ∧
      names = (((list.splitOn ',').map trimBlank).filter (!·.isEmpty)).map String.ofList := by
  have hnames : ∀ {first : Char} {items : List Char}, isBlank first = true →
      (((List.splitOn ',' (first :: items)).map trimBlank).filter (!·.isEmpty)).map String.ofList =
        parameterNames items := by
    intro first items hfirst
    rw [← cutAt_eq_splitOn]
    have hlead : ∀ c ∈ [first], isBlank c = true := by simpa using hfirst
    have htrail : ∀ c ∈ ([] : List Char), isBlank c = true := by simp
    have hsame := parameterNames_append hlead htrail items
    rwa [List.append_nil] at hsame
  constructor
  · intro h
    generalize htext : comment.toList = text at h
    cases h with
    | @parameters lead first items hlead hfirst hne hitems =>
        have hlong : 2 ≤ (first :: items).length := by
          have := List.length_pos_iff.2 hne
          rw [List.length_cons]
          omega
        refine ⟨first :: items, ⟨lead, htext, hlead, hlong, by simpa using hfirst, fun c hc => ?_⟩,
          (hnames hfirst).symm⟩
        rcases List.mem_cons.1 hc with rfl | hc
        · exact .inr (.inl hfirst)
        · exact isItem_iff.1 (hitems c hc)
  · rintro ⟨list, ⟨lead, htext, hlead, hlong, hfirst, hitems⟩, rfl⟩
    match list, hlong with
    | first :: item :: items, _ =>
        have hblank : isBlank first = true := hfirst first rfl
        rw [hnames hblank, htext]
        exact .parameters hlead hblank (by simp) fun c hc => isItem_iff.2 (hitems c (.tail _ hc))

/-- A comment is read by its grammar, and a list of names is read as it was written. -/
theorem reads_comment (comment : String) (first : Entry) (others : List Entry) :
    Reads comment ∧ parse? (written (first :: others)) =
      some (.ignoreParameters ((first :: others).map fun e => String.ofList e.name)) := by
  refine ⟨⟨parse?_eq_find? comment, ?_, ?_, fun names => ?_, ?_⟩, parse?_written first others⟩
  · rw [parse?_eq_some_iff, spelled_ignore_iff]
  · rw [parse?_eq_some_iff, spelled_ignoreAll_iff]
  · rw [parse?_eq_some_iff, spelled_parameters_iff]
  · rw [Option.eq_none_iff_forall_ne_some]
    simp only [Ne, parse?_eq_some_iff]
    constructor
    · intro hnone
      exact ⟨fun h => hnone _ (spelled_ignore_iff.2 h), fun h => hnone _ (spelled_ignoreAll_iff.2 h),
        fun ⟨list, hlist⟩ => hnone _ (spelled_parameters_iff.2 ⟨list, hlist, rfl⟩)⟩
    · rintro ⟨hignore, hall, hlist⟩ d hd
      cases d with
      | ignore => exact hignore (spelled_ignore_iff.1 hd)
      | ignoreAll => exact hall (spelled_ignoreAll_iff.1 hd)
      | ignoreParameters names =>
          obtain ⟨list, hlists, -⟩ := spelled_parameters_iff.1 hd
          exact hlist ⟨list, hlists⟩

end Deadwood.Directive
